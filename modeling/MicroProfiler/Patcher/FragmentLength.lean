/-
  `calculate_fragment_length` of `patcher/src/intel/binary_translation_x86.cpp`: how many bytes are the
  instructions that cover a given length?

  1. **The code** — the loop fetches instructions until their lengths add up.  The decoder is a
     parameter here (`fetchBy`); `InstructionIterator.fetch` is the one that uses `ldisasm`.

  2. **What it is for** — instructions end at the `boundary`s of the code.  The fragment is the first
     of them that is far enough, or the end of the range (`IsFragment`); a range may also end within an
     instruction that is needed (`Crosses`).

  3. **Lengths are kept in a byte** — an instruction of 256 bytes has none, and the loop goes on
     forever.  The result is right EXACTLY FOR decoders that know no such instruction
     (`calculate_fragment_length_exact`), and `ldisasm` does: prefixes may be repeated.
-/
import MicroProfiler.Patcher.BinaryTranslation
import Mathlib.Order.Monotone.Basic

namespace MicroProfiler.Translation

open Lib (Memory)

/-! ## The code -/

/-- `instruction_iterator::fetch`, with a decoder of instruction lengths. -/
def fetchBy (decode : Int → Option Nat) (i : InstructionIterator) :
    Except Fault (Option InstructionIterator) :=
  if i.remaining = i.current then .ok none
  else
    let ptr := i.ptr + i.current
    let remaining := i.remaining - i.current
    match decode ptr with
    | none => .error .diverges
    | some n =>
        let current := n % 256
        if remaining < current then
          .error (.thrown (.inconsistentFunctionRange "attempt to read past the function body"))
        else .ok (some ⟨ptr, remaining, current⟩)

/-- What the walk of other modules uses. -/
theorem fetch_eq_fetchBy (i : InstructionIterator) (m : Memory UInt8) :
    i.fetch m = fetchBy (fun a => ldisasm true (codeAt m a)) i := rfl

/-- The loop; `none`: it goes on. -/
def fragmentLoop (decode : Int → Option Nat) :
    Nat → InstructionIterator → Int → Nat → Option (Except Fault Nat)
  | 0, _, _, _ => none
  | fuel + 1, i, remainder, actualLength =>
      if 0 < remainder then
        match fetchBy decode i with
        | .error e => some (.error e)
        | .ok none => some (.ok actualLength)
        | .ok (some i) => fragmentLoop decode fuel i (remainder - i.current) (actualLength + i.current)
      else some (.ok actualLength)

/-- `calculate_fragment_length`, as far as `fuel` goes. -/
def calculateFragmentLength (decode : Int → Option Nat) (start : Int) (length minLength fuel : Nat) :
    Option (Except Fault Nat) :=
  fragmentLoop decode fuel ⟨start, length, 0⟩ (ptrdiff minLength) 0

/-! ## What it is for -/

/-- A decoder of instruction lengths. -/
structure LengthDecoder where
  length : Int → Nat
  pos : ∀ a, 1 ≤ length a

namespace LengthDecoder

/-- Where the first `k` instructions from `start` on end. -/
def boundary (d : LengthDecoder) (start : Int) : Nat → Nat
  | 0 => 0
  | k + 1 => d.boundary start k + d.length (start + d.boundary start k)

/-- The shortest prefix of whole instructions that is long enough, or all of the range. -/
def IsFragment (d : LengthDecoder) (start : Int) (length minLength n : Nat) : Prop :=
  (∃ k, d.boundary start k = n) ∧ n ≤ length ∧ (minLength ≤ n ∨ n = length) ∧
    ∀ k, minLength ≤ d.boundary start k → n ≤ d.boundary start k

/-- An instruction that is needed goes past the end. -/
def Crosses (d : LengthDecoder) (start : Int) (length minLength : Nat) : Prop :=
  ∃ k, d.boundary start k < minLength ∧ d.boundary start k < length ∧
    length < d.boundary start (k + 1)

/-- The call ends with the outcome. -/
def Ends (d : LengthDecoder) (start : Int) (length minLength : Nat) (outcome : Except Fault Nat) : Prop :=
  ∃ fuel, calculateFragmentLength (fun a => some (d.length a)) start length minLength fuel = some outcome

/-- The call ends; it returns what it is for, and throws where it has to. -/
def Measures (d : LengthDecoder) (start : Int) (length minLength : Nat) : Prop :=
  ∃ outcome, d.Ends start length minLength outcome ∧
    (∀ n, outcome = .ok n ↔ d.IsFragment start length minLength n) ∧
    ((∃ e, outcome = .error (.thrown e)) ↔ d.Crosses start length minLength)

section

variable {d : LengthDecoder} {start : Int} {length minLength : Nat}

theorem boundary_lt_succ (d : LengthDecoder) (start : Int) (k : Nat) :
    d.boundary start k < d.boundary start (k + 1) := by
  have hpos := d.pos (start + d.boundary start k)
  show _ < d.boundary start k + _
  omega

theorem boundary_strictMono (d : LengthDecoder) (start : Int) : StrictMono (d.boundary start) :=
  strictMono_nat_of_lt_succ (d.boundary_lt_succ start)

/-- There is one fragment at most. -/
theorem IsFragment.unique {n n' : Nat} (h : d.IsFragment start length minLength n)
    (h' : d.IsFragment start length minLength n') : n = n' := by
  obtain ⟨⟨k, rfl⟩, hle, henough, hleast⟩ := h
  obtain ⟨⟨k', rfl⟩, hle', henough', hleast'⟩ := h'
  rcases henough with henough | hall
  · rcases henough' with henough' | hall'
    · exact Nat.le_antisymm (hleast k' henough') (hleast' k henough)
    · have hlt := hleast' k henough
      omega
  · rcases henough' with henough' | hall'
    · have hlt := hleast k' henough'
      omega
    · omega

/-- Where an instruction crosses the end there is no fragment. -/
theorem Crosses.not_isFragment (h : d.Crosses start length minLength) (n : Nat) :
    ¬ d.IsFragment start length minLength n := by
  rintro ⟨⟨k', rfl⟩, hle, henough, _⟩
  obtain ⟨k, hshort, hinside, hpast⟩ := h
  have hmono := d.boundary_strictMono start
  -- the end lies between two boundaries
  have hbefore : k' ≤ k := Nat.le_of_lt_succ (hmono.lt_iff_lt.mp (Nat.lt_of_le_of_lt hle hpast))
  have hle' := hmono.monotone hbefore
  omega

theorem isFragment_of_enough {k : Nat} (hle : d.boundary start k ≤ length)
    (henough : minLength ≤ d.boundary start k) (hbefore : ∀ j < k, d.boundary start j < minLength) :
    d.IsFragment start length minLength (d.boundary start k) := by
  refine ⟨⟨k, rfl⟩, hle, Or.inl henough, fun j hj => ?_⟩
  refine (d.boundary_strictMono start).monotone (Nat.le_of_not_lt fun hlt => ?_)
  have hshort := hbefore j hlt
  omega

theorem isFragment_of_all {k : Nat} (hall : d.boundary start k = length)
    (hshort : d.boundary start k < minLength) :
    d.IsFragment start length minLength (d.boundary start k) := by
  refine ⟨⟨k, rfl⟩, Nat.le_of_eq hall, Or.inr hall, fun j hj => ?_⟩
  omega

/-! ## The loop -/

/-- The iterator has the first `k` instructions behind it, the last of them being its current one. -/
structure Past (d : LengthDecoder) (start : Int) (length k : Nat) (i : InstructionIterator) : Prop where
  place : i.ptr + i.current = start + d.boundary start k
  left : i.remaining = i.current + (length - d.boundary start k)
  inside : d.boundary start k ≤ length

theorem past_start : Past d start length 0 ⟨start, length, 0⟩ where
  place := rfl
  left := by simp [boundary]
  inside := Nat.zero_le _

/-- The end of the range. -/
theorem Past.fetch_end {k : Nat} {i : InstructionIterator} (h : Past d start length k i)
    (hall : d.boundary start k = length) : fetchBy (fun a => some (d.length a)) i = .ok none := by
  have hleft := h.left
  rw [fetchBy, if_pos (by omega)]

/-- An instruction whose length fits a byte. -/
theorem Past.fetch_next {k : Nat} {i : InstructionIterator} (h : Past d start length k i)
    (hinside : d.boundary start k < length)
    (hbyte : d.length (start + d.boundary start k) < 256) :
    if length < d.boundary start (k + 1) then
      ∃ e, fetchBy (fun a => some (d.length a)) i = .error (.thrown e)
    else
      ∃ i', fetchBy (fun a => some (d.length a)) i = .ok (some i') ∧ Past d start length (k + 1) i' ∧
        d.boundary start (k + 1) = d.boundary start k + i'.current := by
  have hleft := h.left
  have hsucc : d.boundary start (k + 1) = d.boundary start k + d.length (start + d.boundary start k) := rfl
  have hremaining : i.remaining - i.current = length - d.boundary start k := by omega
  have hfetch : fetchBy (fun a => some (d.length a)) i =
      if length - d.boundary start k < d.length (start + d.boundary start k) then
        .error (.thrown (.inconsistentFunctionRange "attempt to read past the function body"))
      else .ok (some ⟨start + d.boundary start k, length - d.boundary start k,
        d.length (start + d.boundary start k)⟩) := by
    rw [fetchBy, if_neg (by omega), h.place]
    simp only [hremaining, Nat.mod_eq_of_lt hbyte]
  rw [hfetch]
  split
  · rw [if_pos (by omega)]
    exact ⟨_, rfl⟩
  · rw [if_neg (by omega)]
    refine ⟨_, rfl, ⟨?_, ?_, by omega⟩, hsucc⟩
    · dsimp only
      rw [hsucc]
      omega
    · dsimp only
      omega

/-- **The loop**, from the `k`-th instruction on, if those that are needed fit a byte. -/
theorem fragmentLoop_spec
    (hbyte : ∀ k, d.boundary start k < minLength → d.boundary start k < length →
      d.length (start + d.boundary start k) < 256) :
    ∀ (n k : Nat) (i : InstructionIterator), length - d.boundary start k < n → Past d start length k i →
    (∀ j < k, d.boundary start j < minLength) →
    ∃ fuel outcome, fragmentLoop (fun a => some (d.length a)) fuel i
        (minLength - d.boundary start k) (d.boundary start k) = some outcome ∧
      ((∃ n, outcome = .ok n ∧ d.IsFragment start length minLength n) ∨
        ((∃ e, outcome = .error (.thrown e)) ∧ d.Crosses start length minLength))
  | 0, _, _, hn, _, _ => absurd hn (Nat.not_lt_zero _)
  | n + 1, k, i, hn, h, hbefore => by
    by_cases henough : minLength ≤ d.boundary start k
    · refine ⟨1, _, ?_, Or.inl ⟨_, rfl, isFragment_of_enough h.inside henough hbefore⟩⟩
      rw [fragmentLoop, if_neg (by omega)]
    · have hshort : d.boundary start k < minLength := by omega
      by_cases hall : d.boundary start k = length
      · refine ⟨1, _, ?_, Or.inl ⟨_, rfl, isFragment_of_all hall hshort⟩⟩
        rw [fragmentLoop, if_pos (by omega), h.fetch_end hall]
      · have hinside : d.boundary start k < length := Nat.lt_of_le_of_ne h.inside hall
        have hfetch := h.fetch_next hinside (hbyte k hshort hinside)
        split at hfetch
        · next hpast =>
          obtain ⟨e, hfetch⟩ := hfetch
          refine ⟨1, _, ?_, Or.inr ⟨⟨e, rfl⟩, k, hshort, hinside, hpast⟩⟩
          rw [fragmentLoop, if_pos (by omega), hfetch]
        · obtain ⟨i', hfetch, hpast, hcurrent⟩ := hfetch
          have hsucc := d.boundary_lt_succ start k
          obtain ⟨fuel, outcome, hloop, houtcome⟩ := fragmentLoop_spec hbyte n (k + 1) i' (by omega) hpast
            fun j hj => (Nat.lt_succ_iff_lt_or_eq.mp hj).elim (hbefore j) fun heq => heq ▸ hshort
          refine ⟨fuel + 1, outcome, ?_, houtcome⟩
          rw [fragmentLoop, if_pos (by omega), hfetch]
          dsimp only
          rw [← hcurrent, ← hloop]
          congr 1
          omega

/-- The call ends as it should, if the instructions that are needed fit a byte. -/
theorem measures_of_short (hmin : minLength < 0x8000000000000000)
    (hbyte : ∀ k, d.boundary start k < minLength → d.boundary start k < length →
      d.length (start + d.boundary start k) < 256) : d.Measures start length minLength := by
  obtain ⟨fuel, outcome, hloop, houtcome⟩ := fragmentLoop_spec hbyte (length + 1) 0 ⟨start, length, 0⟩
    (by omega) past_start fun j hj => absurd hj (Nat.not_lt_zero j)
  have hends : d.Ends start length minLength outcome := by
    refine ⟨fuel, ?_⟩
    have hptrdiff : ptrdiff minLength = minLength - (d.boundary start 0 : Nat) := by
      unfold ptrdiff boundary
      omega
    rw [calculateFragmentLength, hptrdiff]
    exact hloop
  rcases houtcome with ⟨n, rfl, hfragment⟩ | ⟨⟨e, rfl⟩, hcrosses⟩
  · refine ⟨_, hends, fun n' => ⟨fun heq => ?_, fun h => ?_⟩, ?_⟩
    · cases heq
      exact hfragment
    · rw [hfragment.unique h]
    · refine iff_of_false (fun ⟨e, he⟩ => ?_) fun hcrosses => hcrosses.not_isFragment n hfragment
      cases he
  · refine ⟨_, hends, fun n => iff_of_false (fun heq => ?_) (hcrosses.not_isFragment n), ?_⟩
    · cases heq
    · exact iff_of_true ⟨e, rfl⟩ hcrosses

/-- An instruction whose length is a multiple of 256 is fetched again and again. -/
theorem fragmentLoop_stuck {a : Int} {n : Nat} (hn : 0 < n) (hmultiple : d.length a % 256 = 0) :
    ∀ fuel, fragmentLoop (fun a => some (d.length a)) fuel ⟨a, n, 0⟩ 1 0 = none
  | 0 => rfl
  | fuel + 1 => by
    have hfetch : fetchBy (fun a => some (d.length a)) ⟨a, n, 0⟩ = .ok (some ⟨a, n, 0⟩) := by
      rw [fetchBy, if_neg (by dsimp only; omega)]
      simp [hmultiple]
    rw [fragmentLoop, if_pos (by decide), hfetch]
    exact fragmentLoop_stuck hn hmultiple fuel

/-- A long instruction that is all there is: the loop does not find its length. -/
theorem not_measures_of_long {a : Int} (hlong : 256 ≤ d.length a) : ¬ d.Measures a (d.length a) 1 := by
  rintro ⟨outcome, ⟨fuel, hfuel⟩, hok, _⟩
  have hone : d.boundary a 1 = d.length a := by simp [boundary]
  have hfragment : d.IsFragment a (d.length a) 1 (d.length a) := by
    have henough : ∀ j < 1, d.boundary a j < 1 := by
      intro j hj
      obtain rfl : j = 0 := by omega
      exact Nat.one_pos
    have h := isFragment_of_enough (Nat.le_of_eq hone) (by omega) henough
    rwa [hone] at h
  obtain rfl := (hok _).mpr hfragment
  change fragmentLoop _ fuel ⟨a, d.length a, 0⟩ 1 0 = _ at hfuel
  by_cases hmultiple : d.length a % 256 = 0
  · rw [fragmentLoop_stuck (by omega) hmultiple fuel] at hfuel
    cases hfuel
  · have hfetch : fetchBy (fun a => some (d.length a)) ⟨a, d.length a, 0⟩ =
        .ok (some ⟨a, d.length a, d.length a % 256⟩) := by
      rw [fetchBy, if_neg (by dsimp only; omega)]
      simp only [Int.ofNat_zero, Int.add_zero, Nat.sub_zero]
      rw [if_neg (by omega)]
    match fuel with
    | 0 => cases hfuel
    | fuel + 1 =>
      rw [fragmentLoop, if_pos (by decide), hfetch] at hfuel
      dsimp only at hfuel
      match fuel with
      | 0 => cases hfuel
      | fuel + 1 =>
        rw [fragmentLoop, if_neg (by omega)] at hfuel
        have heq := Except.ok.inj (Option.some.inj hfuel)
        omega

end

/-- `ldisasm`, where it ends. -/
def ofCode (m : Memory UInt8) : LengthDecoder where
  length a := (ldisasm true (codeAt m a)).getD 1
  pos a := by
    cases h : ldisasm true (codeAt m a) with
    | none => exact Nat.le_refl 1
    | some n => exact ldisasm_pos h

theorem ofCode_length {m : Memory UInt8} {a : Int} {n : Nat} (h : ldisasm true (codeAt m a) = some n) :
    (ofCode m).length a = n := by
  simp only [ofCode, h, Option.getD_some]

end LengthDecoder

open LengthDecoder

/-- `nop` behind 255 prefixes. -/
def longNop : Memory UInt8 := fun a => if 0 ≤ a ∧ a < 255 then 0x48 else 0x90

/-- An instruction of 256 bytes is never passed. -/
theorem calculate_fragment_length_stuck :
    ldisasm true (codeAt longNop 0) = some 256 ∧
      (∀ fuel, calculateFragmentLength (fun a => some ((ofCode longNop).length a)) 0 256 1 fuel = none) ∧
      ¬ (ofCode longNop).Measures 0 256 1 := by
  have hdecoded : ldisasm true (codeAt longNop 0) = some 256 := by decide +kernel
  have hlength := ofCode_length hdecoded
  have hmultiple : (ofCode longNop).length 0 % 256 = 0 := by rw [hlength]
  refine ⟨hdecoded, fun fuel => fragmentLoop_stuck (by decide) hmultiple fuel, ?_⟩
  have hlong := not_measures_of_long (Nat.le_of_eq hlength.symm)
  rwa [hlength] at hlong

/-- **`calculate_fragment_length` is exact**, for every range and length, exactly when every
    instruction's length fits a byte; and on a range whenever those that are needed do. -/
theorem calculate_fragment_length_exact (d : LengthDecoder) :
    ((∀ start length minLength, minLength < 0x8000000000000000 → d.Measures start length minLength) ↔
      ∀ a, d.length a < 256) ∧
    ∀ start length minLength, minLength < 0x8000000000000000 →
      (∀ k, d.boundary start k < minLength → d.boundary start k < length →
        d.length (start + d.boundary start k) < 256) → d.Measures start length minLength := by
  refine ⟨⟨fun hall a => ?_, fun hbyte start length minLength hmin => ?_⟩, ?_⟩
  · by_contra hlong
    exact not_measures_of_long (Nat.le_of_not_lt hlong) (hall a (d.length a) 1 (by decide))
  · exact measures_of_short hmin fun k _ _ => hbyte _
  · exact fun start length minLength hmin hbyte => measures_of_short hmin hbyte

end MicroProfiler.Translation
