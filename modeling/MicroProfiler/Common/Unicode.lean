/-
  `unicode` of `common/src/string.cpp`: wide strings to UTF-8 and back.

  1. **The code** — two loops.  One goes over the units of a wide string up to its terminator and puts
     one to three bytes for each; the other reads a leading byte and as many further bytes as it
     asks for.  A wide string is what is in memory from its first unit on, so a list that ends before
     the terminator is a read behind it.

  2. **A unit at a time** — what was put for a unit of up to 11 bits is read back as that unit
     (`codePoints_short`).  For the others the encoder fills a buffer of three bytes and puts two of
     them: the decoder finds a leading byte, or the end, where the third should be
     (`codePoints_cut`).

  3. **The round trip** works EXACTLY FOR the strings without such units (`unicode_round_trips`).
-/
import Mathlib.Data.List.Basic
import Mathlib.Logic.Function.Basic

namespace MicroProfiler.Unicode

/-! ## Wide to UTF-8 -/

/-- `buffer` and `l` for one unit. -/
def encode (unit : Nat) : List UInt8 × Nat :=
  if unit ≤ 0x007F then ([UInt8.ofNat unit], 1)
  else if unit ≤ 0x07FF then
    ([UInt8.ofNat (0xC0 ||| unit >>> 6), UInt8.ofNat (0x80 ||| unit &&& 0x3F)], 2)
  else
    -- `l = 2`: the third byte is composed and not appended
    ([UInt8.ofNat (0xE0 ||| unit >>> 12), UInt8.ofNat (0x80 ||| (unit >>> 6) &&& 0x3F),
      UInt8.ofNat (0x80 ||| unit &&& 0x3F)], 2)

/-- `unicode`, from wide to UTF-8: the text, and what lies behind the terminator.  `none`: there is
    none, and the loop goes on behind the string. -/
def unicodeUtf8 (destination : List UInt8) : List Nat → Option (List UInt8 × List Nat)
  | [] => none
  | unit :: rest =>
      if unit = 0 then some (destination, rest)
      else unicodeUtf8 (destination ++ (encode unit).1.take (encode unit).2) rest

/-! ## UTF-8 to wide -/

/-- The text of the exception, which is the same for all of them. -/
def notUtf8 : String := "not a UTF-8 string"

/-- What the leading byte holds, and how many bytes follow it. -/
def leading (ch : UInt8) : Except String (Nat × Nat) :=
  if ch ≤ 0x7F then .ok (ch.toNat, 0)
  -- a byte that may only follow
  else if ch ≤ 0xBF then .error notUtf8
  else if ch ≤ 0xDF then .ok ((ch &&& 0x1F).toNat, 1)
  else if ch ≤ 0xEF then .ok ((ch &&& 0x0F).toNat, 2)
  else if ch ≤ 0xF7 then .ok ((ch &&& 0x07).toNat, 3)
  else .error notUtf8

/-- The loop over the bytes that follow: the code point, and the bytes that are left. -/
def following : Nat → Nat → List UInt8 → Except String (Nat × List UInt8)
  | 0, uni, rest => .ok (uni, rest)
  | _ + 1, _, [] => .error notUtf8
  | todo + 1, uni, ch2 :: rest =>
      if ch2 < 0x80 ∨ 0xBF < ch2 then .error notUtf8
      else following todo (uni <<< 6 + (ch2 &&& 0x3F).toNat) rest

/-- No byte is read twice, so the loop over the text ends. -/
theorem following_length : ∀ {todo uni : Nat} {bytes : List UInt8} {r : Nat × List UInt8},
    following todo uni bytes = .ok r → r.2.length ≤ bytes.length
  | 0, _, _, _, h => by
    cases h
    exact Nat.le_refl _
  | todo + 1, uni, [], _, h => by cases h
  | todo + 1, uni, ch2 :: rest, r, h => by
    rw [following] at h
    split at h
    · cases h
    · exact Nat.le_succ_of_le (following_length h)

/-- The loop over the text. -/
def codePoints (unicode : List Nat) (utf8 : List UInt8) : Except String (List Nat) :=
  match utf8 with
  | [] => .ok unicode
  | ch :: rest =>
      match leading ch with
      | .error what => .error what
      | .ok (uni, todo) =>
          match _h : following todo uni rest with
          | .error what => .error what
          | .ok (uni, rest) =>
              -- surrogates are no characters, and above the last plane there are none
              if 0xD800 ≤ uni ∧ uni ≤ 0xDFFF then .error notUtf8
              else if 0x10FFFF < uni then .error notUtf8
              else codePoints (unicode ++ [uni]) rest
termination_by utf8.length
decreasing_by exact Nat.lt_succ_of_le (following_length _h)

/-- The units of a code point. -/
def utf16 (uni : Nat) : List Nat :=
  if uni ≤ 0xFFFF then [uni]
  else [((uni - 0x10000) >>> 10) + 0xD800, ((uni - 0x10000) &&& 0x3FF) + 0xDC00]

/-- `unicode`, from UTF-8 to wide. -/
def unicodeWide (utf8 : List UInt8) : Except String (List Nat) :=
  (codePoints [] utf8).map fun unicode => unicode.flatMap utf16

/-! ## A unit at a time -/

/-- What `unicode` puts for a unit. -/
def put (unit : Nat) : List UInt8 := (encode unit).1.take (encode unit).2

/-- The end of the text. -/
theorem codePoints_nil (unicode : List Nat) : codePoints unicode [] = .ok unicode := by
  rw [codePoints]

/-- A code point that is read in full. -/
theorem codePoints_cons {ch : UInt8} {uni todo point : Nat} {bytes rest : List UInt8}
    (hleading : leading ch = .ok (uni, todo))
    (hfollowing : following todo uni bytes = .ok (point, rest))
    (hpoint : point < 0xD800) (unicode : List Nat) :
    codePoints unicode (ch :: bytes) = codePoints (unicode ++ [point]) rest := by
  rw [codePoints, hleading]
  dsimp only
  split
  · -- an error would contradict what follows
    next what herror =>
    rw [hfollowing] at herror
    cases herror
  · next uni' rest' hok =>
    cases hfollowing.symm.trans hok
    rw [if_neg (by omega), if_neg (by omega)]

/-- A code point that is cut short. -/
theorem codePoints_error {ch : UInt8} {uni todo : Nat} {bytes : List UInt8}
    (hleading : leading ch = .ok (uni, todo)) (hfollowing : following todo uni bytes = .error notUtf8)
    (unicode : List Nat) : codePoints unicode (ch :: bytes) = .error notUtf8 := by
  rw [codePoints, hleading]
  dsimp only
  split
  · next what herror =>
    cases hfollowing.symm.trans herror
    rfl
  · next uni' rest' hok =>
    rw [hfollowing] at hok
    cases hok

/-- What a leading byte of each length says, by looking at all of them. -/
theorem leading_one : ∀ x < 0x80, leading (UInt8.ofNat x) = .ok (x, 0) := by decide +kernel

theorem leading_two : ∀ x < 0x20, leading (UInt8.ofNat (0xC0 ||| x)) = .ok (x, 1) := by
  decide +kernel

theorem leading_three : ∀ x < 0x10, leading (UInt8.ofNat (0xE0 ||| x)) = .ok (x, 2) := by
  decide +kernel

/-- A byte that follows holds six bits and is in its range. -/
theorem following_table : ∀ y < 0x40, ¬ (UInt8.ofNat (0x80 ||| y) < 0x80 ∨ 0xBF < UInt8.ofNat (0x80 ||| y)) ∧
    (UInt8.ofNat (0x80 ||| y) &&& 0x3F).toNat = y := by
  decide +kernel

/-- One such byte is read. -/
theorem following_succ {y : Nat} (hy : y < 0x40) (todo uni : Nat) (rest : List UInt8) :
    following (todo + 1) uni (UInt8.ofNat (0x80 ||| y) :: rest) = following todo (uni <<< 6 + y) rest := by
  obtain ⟨hrange, hvalue⟩ := following_table y hy
  rw [following, if_neg hrange, hvalue]

/-- One byte for up to seven bits, -/
theorem put_one {unit : Nat} (h : unit ≤ 0x7F) : put unit = [UInt8.ofNat unit] := by
  rw [put, encode, if_pos h]
  rfl

/-- two for up to eleven. -/
theorem put_two {unit : Nat} (hone : 0x7F < unit) (h : unit ≤ 0x7FF) :
    put unit = [UInt8.ofNat (0xC0 ||| unit / 64), UInt8.ofNat (0x80 ||| unit % 64)] := by
  rw [put, encode, if_neg (by omega), if_pos h, Nat.shiftRight_eq_div_pow,
    Nat.and_two_pow_sub_one_eq_mod unit 6]
  rfl

/-- The third byte is in the buffer and is not put. -/
theorem put_cut {unit : Nat} (h : 0x7FF < unit) :
    put unit = [UInt8.ofNat (0xE0 ||| unit / 4096), UInt8.ofNat (0x80 ||| unit / 64 % 64)] := by
  rw [put, encode, if_neg (by omega), if_neg (by omega), Nat.shiftRight_eq_div_pow,
    Nat.shiftRight_eq_div_pow, Nat.and_two_pow_sub_one_eq_mod (unit / 2 ^ 6) 6]
  rfl

/-- **Units of up to 11 bits** are read back. -/
theorem codePoints_short {unit : Nat} (h : unit ≤ 0x7FF) (unicode : List Nat) (rest : List UInt8) :
    codePoints unicode (put unit ++ rest) = codePoints (unicode ++ [unit]) rest := by
  by_cases hone : unit ≤ 0x7F
  · rw [put_one hone]
    exact codePoints_cons (leading_one unit (by omega)) rfl (by omega) unicode
  · rw [put_two (by omega) h]
    have hfollowing := following_succ (Nat.mod_lt unit (by omega : 0 < 64)) 0 (unit / 64) rest
    -- the bits come together again
    have hvalue : (unit / 64) <<< 6 + unit % 64 = unit := by
      rw [Nat.shiftLeft_eq]
      omega
    rw [hvalue] at hfollowing
    exact codePoints_cons (leading_two _ (by omega)) hfollowing (by omega) unicode

/-- Nothing starts with a byte that may follow. -/
theorem put_starts (unit : Nat) (h : unit ≤ 0xFFFF) :
    ∃ b bytes, put unit = b :: bytes ∧ (b < 0x80 ∨ 0xBF < b) := by
  -- the three leading bytes are all outside the range of those that follow
  have hone : ∀ x < 0x80, UInt8.ofNat x < 0x80 := by decide +kernel
  have htwo : ∀ x < 0x20, 0xBF < UInt8.ofNat (0xC0 ||| x) := by decide +kernel
  have hthree : ∀ x < 0x10, 0xBF < UInt8.ofNat (0xE0 ||| x) := by decide +kernel
  by_cases h₁ : unit ≤ 0x7F
  · exact ⟨_, _, put_one h₁, Or.inl (hone unit (by omega))⟩
  · by_cases h₂ : unit ≤ 0x7FF
    · exact ⟨_, _, put_two (by omega) h₂, Or.inr (htwo _ (by omega))⟩
    · exact ⟨_, _, put_cut (by omega), Or.inr (hthree _ (by omega))⟩

/-- **Longer units** are not, whatever comes next. -/
theorem codePoints_cut {unit : Nat} (hlong : 0x7FF < unit) (h : unit ≤ 0xFFFF) (unicode : List Nat)
    {rest : List UInt8} (hrest : ∀ b ∈ rest.head?, b < 0x80 ∨ 0xBF < b) :
    codePoints unicode (put unit ++ rest) = .error notUtf8 := by
  rw [put_cut hlong]
  refine codePoints_error (leading_three _ (by omega)) ?_ unicode
  show following 2 _ (_ :: rest) = _
  -- one byte follows, and the second that should is the start of the next character or is missing
  rw [following_succ (Nat.mod_lt _ (by omega))]
  cases rest with
  | nil => rfl
  | cons b rest => rw [following, if_pos (hrest b rfl)]

/-! ## The round trip -/

/-- **All units**, one after another. -/
theorem codePoints_puts : ∀ (units unicode : List Nat), (∀ unit ∈ units, unit ≤ 0xFFFF) →
    codePoints unicode (units.flatMap put) =
      if ∀ unit ∈ units, unit ≤ 0x7FF then .ok (unicode ++ units) else .error notUtf8
  | [], unicode, _ => by
    rw [if_pos fun _ h => absurd h List.not_mem_nil, List.append_nil]
    exact codePoints_nil unicode
  | unit :: units, unicode, h => by
    have hunit := h unit List.mem_cons_self
    have hunits := fun u hu => h u (List.mem_cons_of_mem _ hu)
    rw [List.flatMap_cons]
    -- a short unit is read back and the rest decides; a longer one is the end of it
    by_cases hshort : unit ≤ 0x7FF
    · rw [codePoints_short hshort, codePoints_puts units _ hunits, List.append_assoc]
      simp only [List.forall_mem_cons, hshort, true_and]
      rfl
    · rw [if_neg fun hall => hshort (hall unit List.mem_cons_self)]
      refine codePoints_cut (by omega) hunit unicode fun b hb => ?_
      -- what follows the cut character is the end, or a leading byte
      cases units with
      | nil => cases hb
      | cons next units =>
        obtain ⟨b', bytes, hput, hstarts⟩ := put_starts next (hunits next List.mem_cons_self)
        rw [List.flatMap_cons, hput] at hb
        cases hb
        exact hstarts

/-- A unit of the plane is one unit again. -/
theorem flatMap_utf16 (units : List Nat) (h : ∀ unit ∈ units, unit ≤ 0xFFFF) :
    units.flatMap utf16 = units := by
  induction units with
  | nil => rfl
  | cons unit units ih =>
    rw [List.flatMap_cons, utf16, if_pos (h unit List.mem_cons_self),
      ih fun u hu => h u (List.mem_cons_of_mem _ hu)]
    rfl

/-- The encoder stops at the terminator, and nowhere else. -/
theorem unicodeUtf8_eq (units behind : List Nat) (h : ∀ unit ∈ units, unit ≠ 0) :
    ∀ destination, unicodeUtf8 destination (units ++ 0 :: behind) =
      some (destination ++ units.flatMap put, behind) := by
  induction units with
  | nil =>
    intro destination
    rw [List.nil_append, unicodeUtf8, if_pos rfl, List.flatMap_nil, List.append_nil]
  | cons unit units ih =>
    intro destination
    rw [List.cons_append, unicodeUtf8, if_neg (h unit List.mem_cons_self),
      ih fun u hu => h u (List.mem_cons_of_mem _ hu), List.flatMap_cons, List.append_assoc]
    rfl

/-- A character of the basic multilingual plane: not NUL, and no surrogate. -/
structure BasicChar where
  unit : Nat
  notNul : unit ≠ 0
  basic : unit ≤ 0xFFFF
  notSurrogate : ¬ (0xD800 ≤ unit ∧ unit ≤ 0xDFFF)

/-- Wherever the string lies, it is read up to its terminator, and its UTF-8 is read back in full. -/
def RoundTrips (text : List BasicChar) : Prop :=
  -- the string is followed by whatever memory holds
  ∀ behind, ∃ utf8, unicodeUtf8 [] (text.map BasicChar.unit ++ 0 :: behind) = some (utf8, behind) ∧
    unicodeWide utf8 = .ok (text.map BasicChar.unit)

/-- The euro sign is encoded in two bytes, which is not UTF-8. -/
theorem unicode_euro_refused :
    let euro : BasicChar := ⟨0x20AC, by decide, by decide, by decide⟩
    unicodeUtf8 [] [0x20AC, 0] = some ([0xE2, 0x82], []) ∧
      unicodeWide [0xE2, 0x82] = .error notUtf8 ∧ ¬ RoundTrips [euro] := by
  intro euro
  have hutf8 : unicodeUtf8 [] [0x20AC, 0] = some ([0xE2, 0x82], []) := by decide +kernel
  have hwide : unicodeWide [0xE2, 0x82] = .error notUtf8 := by
    have hleading : leading 0xE2 = .ok (2, 2) := by decide +kernel
    have hfollowing : following 2 2 [0x82] = .error notUtf8 := by decide +kernel
    rw [unicodeWide, codePoints_error hleading hfollowing]
    rfl
  refine ⟨hutf8, hwide, fun htrips => ?_⟩
  obtain ⟨utf8, h, hok⟩ := htrips []
  cases hutf8.symm.trans h
  rw [hwide] at hok
  cases hok

/-- **UTF-8 round trips** exactly for strings of units that have up to 11 bits. -/
theorem unicode_round_trips (text : List BasicChar) :
    RoundTrips text ↔ ∀ c ∈ text, c.unit ≤ 0x7FF := by
  have hbasic : ∀ unit ∈ text.map BasicChar.unit, unit ≤ 0xFFFF := by
    intro unit hunit
    obtain ⟨c, _, rfl⟩ := List.mem_map.mp hunit
    exact c.basic
  have hnul : ∀ unit ∈ text.map BasicChar.unit, unit ≠ 0 := by
    intro unit hunit
    obtain ⟨c, _, rfl⟩ := List.mem_map.mp hunit
    exact c.notNul
  -- what comes back is all or an error
  have hwide : unicodeWide ((text.map BasicChar.unit).flatMap put) =
      if ∀ c ∈ text, c.unit ≤ 0x7FF then .ok (text.map BasicChar.unit) else .error notUtf8 := by
    rw [unicodeWide, codePoints_puts _ _ hbasic]
    simp only [List.forall_mem_map]
    split
    · exact congrArg Except.ok (flatMap_utf16 _ hbasic)
    · rfl
  constructor
  · -- were there a longer character, it would be an error
    intro htrips
    obtain ⟨utf8, hutf8, hok⟩ := htrips []
    rw [unicodeUtf8_eq _ [] hnul] at hutf8
    cases hutf8
    rw [List.nil_append, hwide] at hok
    by_contra hlong
    rw [if_neg hlong] at hok
    cases hok
  · intro hshort behind
    refine ⟨_, unicodeUtf8_eq _ behind hnul [], ?_⟩
    rw [List.nil_append, hwide, if_pos hshort]

end MicroProfiler.Unicode
