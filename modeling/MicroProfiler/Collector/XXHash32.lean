/-
  The hash of a module's file.

  1. **Program** — `XXHash32` of collector/src/xxhash32.h: four lanes, a buffer for what is short of
     a stripe of 16 bytes, and `add`, which may be called as often as one likes; `calculate_hash`
     of collector/src/module_tracker.cpp, which feeds it a file 1024 bytes at a time.

  2. **Specification** — `xxh32`, the hash of the WHOLE data: no buffer, no calls, the seed where
     the code relies on a lane not being touched yet.

  3. **The crux (`Absorbed.add`)** — after any calls the lanes are those of the whole stripes of all
     the data so far and the buffer is EXACTLY what is left over; the three branches of `add` (all
     of it fits, the buffer is completed first, the buffer is empty) keep it.
-/
import MicroProfiler.Lib.Stripes
import Mathlib.Algebra.Group.Nat.Defs

namespace MicroProfiler

namespace XXHash32

/-- `Prime1` to `Prime5`. -/
def prime1 : UInt32 := 2654435761
def prime2 : UInt32 := 2246822519
def prime3 : UInt32 := 3266489917
def prime4 : UInt32 := 668265263
def prime5 : UInt32 := 374761393

/-- `MaxBufferSize`: the bytes of a stripe. -/
def maxBufferSize : Nat := 15 + 1

/-- `rotateLeft`. -/
def rotateLeft (x bits : UInt32) : UInt32 := (x <<< bits) ||| (x >>> (32 - bits))

/-- `((const uint32_t *)data)[i]`: the code is not endian-aware, and the machines it is built for
    are little-endian. -/
def word (data : List UInt8) (i : Nat) : UInt32 :=
  (data.getD (4 * i) 0).toUInt32 ||| ((data.getD (4 * i + 1) 0).toUInt32 <<< 8)
    ||| ((data.getD (4 * i + 2) 0).toUInt32 <<< 16) ||| ((data.getD (4 * i + 3) 0).toUInt32 <<< 24)

/-- `state[4]`. -/
structure Lanes where
  s0 : UInt32
  s1 : UInt32
  /-- the code reads the seed back from here when there was no whole stripe -/
  s2 : UInt32
  s3 : UInt32
deriving DecidableEq, Repr

/-- What one block makes of one lane. -/
def lane (s block : UInt32) : UInt32 := rotateLeft (s + block * prime2) 13 * prime1

/-- `process`: a stripe, a block for each lane. -/
def process (s : Lanes) (data : List UInt8) : Lanes where
  s0 := lane s.s0 (word data 0)
  s1 := lane s.s1 (word data 1)
  s2 := lane s.s2 (word data 2)
  s3 := lane s.s3 (word data 3)

/-- `state` as the constructor leaves it. -/
def seeded (seed : UInt32) : Lanes where
  s0 := seed + prime1 + prime2
  s1 := seed + prime2
  s2 := seed
  s3 := seed - prime1

end XXHash32

open XXHash32 in
/-- The object: `buffer` holds the `bufferSize` bytes in use, always fewer than a stripe. -/
structure XXHash32 where
  state : Lanes
  buffer : List UInt8
  totalLength : UInt64
  fits : buffer.length < maxBufferSize

namespace XXHash32

/-- The constructor. -/
def ofSeed (seed : UInt32) : XXHash32 := ⟨seeded seed, [], 0, by decide⟩

/-- `add`; a null pointer is `none`. -/
def add (h : XXHash32) : Option (List UInt8) → Bool × XXHash32
  | none => (false, h)
  | some data =>
    if data.length = 0 then (false, h)
    else
      -- it wraps as `uint64_t` does
      let totalLength := h.totalLength + UInt64.ofNat data.length
      -- the unprocessed data still fits
      if hfits : h.buffer.length + data.length < maxBufferSize then
        (true, ⟨h.state, h.buffer ++ data, totalLength, by rwa [List.length_append]⟩)
      else
        -- else the buffer is completed first, if there is anything in it
        let missing := maxBufferSize - h.buffer.length
        let filled :=
          if 0 < h.buffer.length then
            (process h.state (h.buffer ++ data.take missing), data.drop missing)
          else (h.state, data)
        -- then whole stripes, and the rest is kept
        let done := Lib.stripes maxBufferSize process filled.1 filled.2
        (true, ⟨done.1, done.2, totalLength, Lib.stripes_rest_length (by decide) _ _ _⟩)

/-- The four lanes folded into one value. -/
def converge (s : Lanes) : UInt32 :=
  rotateLeft s.s0 1 + rotateLeft s.s1 7 + rotateLeft s.s2 12 + rotateLeft s.s3 18

/-- The bytes short of a stripe: four at a time, then one at a time. -/
def eat (result : UInt32) (data : List UInt8) : UInt32 :=
  let fours := Lib.stripes 4
    (fun result data => rotateLeft (result + word data 0 * prime3) 17 * prime4) result data
  fours.2.foldl (fun result b => rotateLeft (result + b.toUInt32 * prime5) 11 * prime1) fours.1

/-- Mix bits. -/
def mix (result : UInt32) : UInt32 :=
  let result := result ^^^ (result >>> 15)
  let result := result * prime2
  let result := result ^^^ (result >>> 13)
  let result := result * prime3
  result ^^^ (result >>> 16)

/-- `hash`: the state is folded, and nothing of it is changed. -/
def hash (h : XXHash32) : UInt32 :=
  let result := h.totalLength.toUInt32
  let result :=
    -- no stripe yet: the seed is what lane 2 still holds
    if UInt64.ofNat maxBufferSize ≤ h.totalLength then result + converge h.state
    else result + (h.state.s2 + prime5)
  mix (eat result h.buffer)

/-- The static `hash`. -/
def hashOf (input : Option (List UInt8)) (seed : UInt32) : UInt32 :=
  ((ofSeed seed).add input).2.hash

/-! ## Specification -/

/-- The lanes after the whole stripes of the data, and what is left over. -/
def absorb (seed : UInt32) (data : List UInt8) : Lanes × List UInt8 :=
  Lib.stripes maxBufferSize process (seeded seed) data

/-- The hash of the whole data. -/
def xxh32 (seed : UInt32) (data : List UInt8) : UInt32 :=
  let lanes := absorb seed data
  let start := if maxBufferSize ≤ data.length then converge lanes.1 else seed + prime5
  mix (eat (UInt32.ofNat data.length + start) lanes.2)

/-! ## Any calls -/

/-- The INVARIANT of the calls: `h` has taken in `data`. -/
structure Absorbed (seed : UInt32) (data : List UInt8) (h : XXHash32) : Prop where
  state : h.state = (absorb seed data).1
  buffer : h.buffer = (absorb seed data).2
  totalLength : h.totalLength = UInt64.ofNat data.length

/-- Before the first call. -/
theorem absorbed_ofSeed (seed : UInt32) : Absorbed seed [] (ofSeed seed) := by
  have h : absorb seed [] = (seeded seed, []) := Lib.stripes_of_lt (by decide)
  exact ⟨by rw [h]; rfl, by rw [h]; rfl, rfl⟩

/-- Completing the buffer first is taking the stripes of the buffer followed by the data. -/
theorem stripes_filled (h : XXHash32) (data : List UInt8)
    (hfull : ¬ h.buffer.length + data.length < maxBufferSize) :
    (let missing := maxBufferSize - h.buffer.length
     let filled :=
       if 0 < h.buffer.length then
         (process h.state (h.buffer ++ data.take missing), data.drop missing)
       else (h.state, data)
     Lib.stripes maxBufferSize process filled.1 filled.2)
      = Lib.stripes maxBufferSize process h.state (h.buffer ++ data) := by
  have hfits := h.fits
  dsimp only
  split
  · -- the bytes missing make the first stripe of the two together
    have hle : maxBufferSize ≤ (h.buffer ++ data).length := by
      rw [List.length_append]
      omega
    rw [Lib.stripes_of_le (by decide) hle, List.take_append, List.drop_append,
      List.take_of_length_le (Nat.le_of_lt hfits), List.drop_of_length_le (Nat.le_of_lt hfits),
      List.nil_append]
  · -- nothing in the buffer: the two together are the data
    have hempty : h.buffer = [] := List.length_eq_zero_iff.1 (by omega)
    rw [hempty, List.nil_append]

/-- The length that is counted is the one of all the data, wrapped or not. -/
theorem ofNat_add_length (data more : List UInt8) :
    UInt64.ofNat data.length + UInt64.ofNat more.length = UInt64.ofNat (data ++ more).length := by
  rw [List.length_append, UInt64.ofNat_add]

/-- One call takes in what it is given; a null pointer gives nothing. -/
theorem Absorbed.add {seed : UInt32} {data : List UInt8} {h : XXHash32} (ha : Absorbed seed data h)
    (input : Option (List UInt8)) : Absorbed seed (data ++ input.getD []) (h.add input).2 := by
  rcases input with _ | more
  · rwa [Option.getD_none, List.append_nil]
  -- what is to be reached: the stripes of the lanes so far and of the buffer followed by the data
  have hstripes : absorb seed (data ++ more)
      = Lib.stripes maxBufferSize process h.state (h.buffer ++ more) := by
    rw [ha.state, ha.buffer]
    exact Lib.stripes_append (by decide) _ _ _ _
  rw [Option.getD_some, XXHash32.add]
  split
  · -- an empty call
    next hzero =>
    rwa [List.length_eq_zero_iff.1 hzero, List.append_nil]
  · dsimp only
    split
    · next hfits =>
      -- no stripe is full: the buffer is all that grows
      rw [Lib.stripes_of_lt (by rwa [List.length_append])] at hstripes
      exact ⟨by rw [hstripes], by rw [hstripes],
        by rw [ha.totalLength, ofNat_add_length]⟩
    · next hfull =>
      -- at least one is
      rw [← stripes_filled h more hfull] at hstripes
      exact ⟨by rw [hstripes], by rw [hstripes], by rw [ha.totalLength, ofNat_add_length]⟩

/-- What any calls are given, taken together. -/
def whole (inputs : List (Option (List UInt8))) : List UInt8 :=
  (inputs.map (Option.getD · [])).flatten

/-- Any calls, one after another. -/
def addAll (h : XXHash32) (inputs : List (Option (List UInt8))) : XXHash32 :=
  inputs.foldl (fun h input => (h.add input).2) h

/-- **Any number of calls.** By induction on them, whatever was taken in before. -/
theorem Absorbed.addAll {seed : UInt32} (inputs : List (Option (List UInt8))) {data : List UInt8}
    {h : XXHash32} (ha : Absorbed seed data h) :
    Absorbed seed (data ++ whole inputs) (h.addAll inputs) := by
  induction inputs generalizing data h with
  | nil => rwa [whole, List.map_nil, List.flatten_nil, List.append_nil]
  | cons input inputs ih =>
    rw [whole, List.map_cons, List.flatten_cons, ← List.append_assoc]
    exact ih (ha.add input)

/-- Short of a stripe no lane was touched: the seed is still where the code looks for it. -/
theorem absorb_of_lt {seed : UInt32} {data : List UInt8} (h : data.length < maxBufferSize) :
    absorb seed data = (seeded seed, data) :=
  Lib.stripes_of_lt h

/-- The test on the counted length is one on the length, as long as it fits. -/
theorem ofNat_le_ofNat {data : List UInt8} (h : data.length < 2 ^ 64) :
    UInt64.ofNat maxBufferSize ≤ UInt64.ofNat data.length ↔ maxBufferSize ≤ data.length := by
  rw [UInt64.le_iff_toNat_le, UInt64.toNat_ofNat_of_lt' h]
  rfl

/-- **The hash is that of the data taken in**: what the code reads from the state is what the whole
    data gives. -/
theorem Absorbed.hash {seed : UInt32} {data : List UInt8} {h : XXHash32}
    (ha : Absorbed seed data h) (hlen : data.length < 2 ^ 64) : h.hash = xxh32 seed data := by
  rw [XXHash32.hash, xxh32, ha.totalLength, UInt64.toUInt32_ofNat', ha.buffer]
  simp only [ofNat_le_ofNat hlen]
  split
  · rw [ha.state]
  · -- fewer than a stripe: lane 2 is the seed
    next hlt =>
    rw [ha.state, absorb_of_lt (by omega)]
    rfl

/-- The hash does not depend on how the data was cut into calls, null and empty ones included: it is
    that of one call with the whole data, which is `xxh32`. -/
theorem hash_addAll (seed : UInt32) (inputs : List (Option (List UInt8)))
    (hlen : (whole inputs).length < 2 ^ 64) :
    ((ofSeed seed).addAll inputs).hash = hashOf (some (whole inputs)) seed ∧
      hashOf (some (whole inputs)) seed = xxh32 seed (whole inputs) := by
  have hone : hashOf (some (whole inputs)) seed = xxh32 seed (whole inputs) :=
    ((absorbed_ofSeed seed).add (some (whole inputs))).hash hlen
  have hmany := ((absorbed_ofSeed seed).addAll inputs).hash hlen
  exact ⟨hmany.trans hone.symm, hone⟩

example : hashOf (some [97]) 0 = 0x550d7456 := by decide +kernel

theorem hash_addAll_abc :
    ((ofSeed 7).addAll [some [97], none, some [], some [98, 99]]).hash
        = hashOf (some [97, 98, 99]) 7 ∧ hashOf (some [97, 98, 99]) 7 = xxh32 7 [97, 98, 99] :=
  hash_addAll 7 [some [97], none, some [], some [98, 99]] (by decide)

end XXHash32

/-! ## The hash of a file -/

namespace ModuleTracker

/-- `n` of `calculate_hash`. -/
def hashChunk : Nat := 1024

/-- The loop of `calculate_hash` over what is left of the stream: `read_l` is `fread`, which gives
    fewer bytes than asked for only at the end of the file. -/
def hashChunks (h : XXHash32) (rest : List UInt8) : XXHash32 :=
  if (rest.take hashChunk).length = hashChunk then
    hashChunks (h.add (some (rest.take hashChunk))).2 (rest.drop hashChunk)
  else (h.add (some (rest.take hashChunk))).2
termination_by rest.length
decreasing_by
  rename_i hread
  rw [List.length_take] at hread
  rw [List.length_drop]
  simp only [hashChunk] at *
  omega

/-- What `read_file_stream` throws. -/
inductive FileError
  | notFound (message : String)
deriving DecidableEq, Repr

/-- `calculate_hash`; `files` is what the file system holds. -/
def calculateHash (files : String → Option (List UInt8)) (path : String) :
    Except FileError UInt32 :=
  match files path with
  | none => .error (.notFound ("File '" ++ path ++ "' not found!"))
  | some content => .ok (hashChunks (.ofSeed 0) content).hash

/-- The loop takes in the whole stream, by its own recursion: a full read is one call, the last one
    ends it. -/
theorem absorbed_hashChunks {seed : UInt32} {data : List UInt8} {h : XXHash32} (rest : List UInt8)
    (ha : XXHash32.Absorbed seed data h) :
    XXHash32.Absorbed seed (data ++ rest) (hashChunks h rest) := by
  fun_induction hashChunks h rest generalizing data with
  | case1 h rest _ ih =>
    have hnext := ih (ha.add (some (rest.take hashChunk)))
    rwa [Option.getD_some, List.append_assoc, List.take_append_drop] at hnext
  | case2 h rest hshort =>
    -- a short read: the file ended inside it
    have hall : rest.take hashChunk = rest := by
      refine List.take_of_length_le ?_
      rw [List.length_take] at hshort
      omega
    rw [hall]
    exact ha.add (some rest)

/-- The hash of a module is that of the WHOLE file, whatever its length (a multiple of the buffer
    included, where the last call adds nothing); a missing file is the error that names it. -/
theorem calculateHash_eq (files : String → Option (List UInt8)) (path : String)
    (hlen : ∀ content, files path = some content → content.length < 2 ^ 64) :
    calculateHash files path
      = match files path with
        | some content => .ok (XXHash32.xxh32 0 content)
        | none => .error (.notFound ("File '" ++ path ++ "' not found!")) := by
  rw [calculateHash]
  rcases hfile : files path with _ | content
  · rfl
  · have ha := absorbed_hashChunks content (XXHash32.absorbed_ofSeed 0)
    rw [List.nil_append] at ha
    exact congrArg Except.ok (ha.hash (hlen content hfile))

theorem calculateHash_eq_module :
    calculateHash (fun path => if path = "x.so" then some [127, 69, 76, 70] else none) "x.so"
      = .ok (XXHash32.xxh32 0 [127, 69, 76, 70]) := by
  refine calculateHash_eq _ _ fun content h => ?_
  rw [if_pos rfl, Option.some.injEq] at h
  rw [← h]
  decide

end ModuleTracker

end MicroProfiler
