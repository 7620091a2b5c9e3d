/-
  `itoa` of `common/formatting.h`: an integer as text.

  1. **The code** — the sign goes to the destination at once, and digits are written backwards into a
     buffer that holds a digit for each bit and one more; what is left of `min_width` then is padding.
     `min_width` is a `signed char` and goes down with every character.  `none` is a write before the
     buffer or a read behind the table of digits.

  2. **Digits** (`digitsLoop_eq`) — of a value that is not negative, by Mathlib's `Nat.digits`.

  3. **Two ways to go wrong** — the most negative value has no absolute value of its type, and stays
     negative (`digitsLoop_negative`); and a `min_width` that is far below zero is taken below -128,
     from where it comes back positive (`iterate_decrement`).  Else the text is right: EXACTLY THEN
     (`itoa_prints`).
-/
import MicroProfiler.Lib.Memory
import Mathlib.Data.Nat.Digits.Lemmas

namespace MicroProfiler

open Lib.Memory (lowByte)

/-- The integer types: 8 to 64 bits. -/
structure IntegerType where
  size : Nat
  isSigned : Bool
  known : size = 1 ∨ size = 2 ∨ size = 4 ∨ size = 8

namespace IntegerType

/-- How wide it is. -/
def bits (t : IntegerType) : Nat := 8 * t.size

/-- Its least value. -/
def least (t : IntegerType) : Int := if t.isSigned then -(2 ^ (t.bits - 1)) else 0

/-- The value is one of the type. -/
def Holds (t : IntegerType) (v : Int) : Prop := t.least ≤ v ∧ v < t.least + 2 ^ t.bits

/-- Conversion to the type, modulo 2^n. -/
def convert (t : IntegerType) (v : Int) : Int := (v - t.least) % 2 ^ t.bits + t.least

end IntegerType

namespace Formatting

/-! ## The code -/

/-- `"0123456789ABCDEF"`, with its terminator. -/
def digitTable : List UInt8 :=
  [0x30, 0x31, 0x32, 0x33, 0x34, 0x35, 0x36, 0x37, 0x38, 0x39, 0x41, 0x42, 0x43, 0x44, 0x45, 0x46, 0]

/-- `digits<base <= 10>::get` -/
def digitsGet (base : Nat) (digit : UInt8) : Option UInt8 :=
  if base ≤ 10 then some (0x30 + digit) else digitTable[digit.toNat]?

/-- `--min_width` -/
def decrement (minWidth : Int) : Int := if minWidth = -128 then 127 else minWidth - 1

/-- The loop that writes digits, with `p` free places before the text. -/
def digitsLoop (base : Nat) : Nat → Int → Int → List UInt8 → Option (Nat × Int × List UInt8)
  -- a write before the buffer
  | 0, _, _, _ => none
  | p + 1, value, minWidth, text =>
      (digitsGet base (lowByte (value.tmod base))).bind fun c =>
        if value.tdiv base ≠ 0 then digitsLoop base p (value.tdiv base) (decrement minWidth) (c :: text)
        else some (p, decrement minWidth, c :: text)

/-- The loop that writes padding. -/
def paddingLoop (padding : UInt8) : Nat → Int → List UInt8 → Option (List UInt8)
  -- no place is left: there must be nothing to write
  | 0, minWidth, text => if 0 < minWidth then none else some text
  | p + 1, minWidth, text =>
      if 0 < minWidth then paddingLoop padding p (decrement minWidth) (padding :: text) else some text

/-- `adjust_signed::adjust` -/
def adjust (t : IntegerType) (destination : List UInt8) (value minWidth : Int) : List UInt8 × Int × Int :=
  -- the negation is of the type again; for the least value it is that value
  if t.isSigned = true ∧ value < 0 then (destination ++ [0x2D], t.convert (-value), decrement minWidth)
  else (destination, value, minWidth)

/-- `itoa` -/
def itoa (t : IntegerType) (base : Nat) (destination : List UInt8) (value minWidth : Int)
    (padding : UInt8) : Option (List UInt8) :=
  let maxLength := 8 * t.size + 1
  let adjusted := adjust t destination value minWidth
  (digitsLoop base maxLength adjusted.2.1 adjusted.2.2 []).bind fun r =>
    (paddingLoop padding r.1 r.2.1 r.2.2).map fun text => adjusted.1 ++ text

/-! ## What it is for -/

/-- The character of a digit. -/
def digitChar (d : Nat) : UInt8 := digitTable.getD d 0

/-- The digits of a number. -/
def numeral (base n : Nat) : List UInt8 :=
  if n = 0 then [digitChar 0] else (Nat.digits base n).reverse.map digitChar

/-- A minus, before a value that is negative. -/
def sign (v : Int) : List UInt8 := if v < 0 then [0x2D] else []

/-- How long the text is without padding. -/
def naturalLength (base : Nat) (v : Int) : Nat := (sign v).length + (numeral base v.natAbs).length

/-- The sign, the padding and the digits of the absolute value. -/
def printed (base : Nat) (v minWidth : Int) (padding : UInt8) : List UInt8 :=
  sign v ++ List.replicate (minWidth - naturalLength base v).toNat padding ++ numeral base v.natAbs

/-- A digit more. -/
def readDigit (base n : Nat) (c : UInt8) : Option Nat :=
  if digitTable.idxOf c < base then some (n * base + digitTable.idxOf c) else none

/-- The number that a text stands for. -/
def parse (base : Nat) (text : List UInt8) : Option Int :=
  if text.head? = some 0x2D then Option.map (fun n : Nat => -(n : Int)) (text.tail.foldlM (readDigit base) 0)
  else Option.map (fun n : Nat => (n : Int)) (text.foldlM (readDigit base) 0)

/-! ## Digits -/

section

variable {base : Nat} (hbase : 2 ≤ base) (hbase' : base ≤ 16)

/-- Digits are above the minus, and the table tells them apart. -/
theorem digitChar_table : ∀ d < 16, 0x30 ≤ digitChar d ∧ digitTable.idxOf (digitChar d) = d := by
  decide +kernel

include hbase in
/-- The last digit of a number. -/
theorem numeral_eq (n : Nat) :
    numeral base n = (if n / base = 0 then [] else numeral base (n / base)) ++ [digitChar (n % base)] := by
  unfold numeral
  by_cases hn : n = 0
  · rw [if_pos hn, hn, Nat.zero_div, if_pos rfl, Nat.zero_mod]
    rfl
  · rw [if_neg hn, Nat.digits_def' hbase (Nat.pos_of_ne_zero hn), List.reverse_cons, List.map_append]
    split
    · next hlast =>
      rw [hlast, Nat.digits_zero]
      rfl
    · rfl

include hbase hbase' in
/-- Every character of a number is a digit. -/
theorem numeral_chars (n : Nat) : ∀ c ∈ numeral base n, 0x30 ≤ c := by
  have hdigit : ∀ m, 0x30 ≤ digitChar (m % base) := fun m =>
    (digitChar_table _ (Nat.lt_of_lt_of_le (Nat.mod_lt m (by omega)) hbase')).1
  -- on the number, as `numeral_eq` takes the last digit off
  induction n using Nat.strongRecOn with
  | ind n ih =>
    intro c hc
    rw [numeral_eq hbase] at hc
    rcases List.mem_append.mp hc with hc | hc
    · split at hc
      · exact absurd hc List.not_mem_nil
      · next hmore => exact ih (n / base) (Nat.div_lt_self (by
          rcases Nat.eq_zero_or_pos n with rfl | hpos
          · exact absurd (Nat.zero_div base) hmore
          · exact hpos) hbase) c hc
    · rw [List.mem_singleton.mp hc]
      exact hdigit n

include hbase in
/-- A number of `k` bits has at most a digit for each. -/
theorem numeral_length_le {n k : Nat} (hk : 0 < k) (hn : n < 2 ^ k) : (numeral base n).length ≤ k := by
  unfold numeral
  split
  · exact hk
  · rw [List.length_map, List.length_reverse, Nat.digits_length_le_iff hbase]
    exact Nat.lt_of_lt_of_le hn (Nat.pow_le_pow_left hbase k)

include hbase in
/-- Zero has a digit too. -/
theorem numeral_length_pos (n : Nat) : 0 < (numeral base n).length := by
  rw [numeral_eq hbase, List.length_append]
  exact Nat.succ_pos _

/-- A digit that is not negative. -/
theorem digitsGet_eq {d : Nat} (hd : d < base) (hbase' : base ≤ 16) :
    digitsGet base (lowByte d) = some (digitChar d) := by
  have hten : ∀ d : Nat, d < 10 → (0x30 : UInt8) + lowByte d = digitChar d := by decide +kernel
  have htable : ∀ d : Nat, d < 16 → digitTable[(lowByte d).toNat]? = some (digitChar d) := by decide +kernel
  unfold digitsGet
  split
  · rw [hten d (by omega)]
  · exact htable d (by omega)

include hbase hbase' in
/-- **The digits** of a value that is not negative. -/
theorem digitsLoop_eq : ∀ (p n : Nat) (w : Int) (text : List UInt8), (numeral base n).length ≤ p →
    digitsLoop base p n w text = some (p - (numeral base n).length,
      decrement^[(numeral base n).length] w, numeral base n ++ text)
  | 0, n, w, text, hp => by
    have hpos := numeral_length_pos hbase n
    omega
  | p + 1, n, w, text, hp => by
    have hlt := Nat.mod_lt n (by omega : 0 < base)
    rw [digitsLoop, ← Int.ofNat_tmod, digitsGet_eq hlt hbase', Option.bind_some, ← Int.ofNat_tdiv]
    have heq := numeral_eq hbase n
    by_cases hlast : n / base = 0
    · -- the first digit: the loop ends
      rw [if_pos hlast] at heq
      rw [heq, if_neg (by simp [hlast])]
      rfl
    · -- one digit is written, and the loop goes on with the others
      rw [if_neg hlast] at heq
      rw [heq, List.length_append, List.length_singleton] at hp ⊢
      rw [if_pos (Int.natCast_ne_zero.mpr hlast), digitsLoop_eq p (n / base) _ _ (by omega), List.append_assoc,
        Function.iterate_succ_apply]
      congr 2
      omega

include hbase hbase' in
/-- **A value that stays negative**: the first digit is below all digits, if there is one at all. -/
theorem digitsLoop_negative : ∀ (p n : Nat) (w : Int) (text : List UInt8) (r : Nat × Int × List UInt8),
    0 < n → digitsLoop base p (-n) w text = some r →
      ∃ c digits, r.2.2 = (c :: digits) ++ text ∧ (c :: digits).length = (numeral base n).length ∧ c < 0x30
  | 0, _, _, _, _, _, hloop => by cases hloop
  | p + 1, n, w, text, r, hn, hloop => by
    -- the remainder is negative, so the digit is taken below the table or read behind it
    have hten : ∀ d : Nat, d < 16 → 0 < d → (0x30 : UInt8) + lowByte (-d) < 0x30 := by decide +kernel
    have htable : ∀ d : Nat, d < 16 → 0 < d → digitTable[(lowByte (-d)).toNat]? = none := by decide +kernel
    rw [digitsLoop, Int.neg_tmod, Int.neg_tdiv, ← Int.ofNat_tmod, ← Int.ofNat_tdiv] at hloop
    obtain ⟨c, hc, hloop⟩ := Option.bind_eq_some_iff.mp hloop
    have heq := numeral_eq hbase n
    by_cases hlast : n / base = 0
    · rw [if_pos hlast] at heq
      rw [if_neg (by rw [hlast]; simp)] at hloop
      obtain rfl := Option.some.inj hloop
      have hlt : n < base := Nat.lt_of_div_eq_zero (by omega) hlast
      rw [Nat.mod_eq_of_lt hlt, digitsGet] at hc
      refine ⟨c, [], rfl, by rw [heq]; rfl, ?_⟩
      split at hc
      · obtain rfl := Option.some.inj hc
        exact hten n (by omega) hn
      · rw [htable n (by omega) hn] at hc
        cases hc
    · rw [if_neg hlast] at heq
      rw [if_pos (Int.neg_ne_zero.mpr (Int.natCast_ne_zero.mpr hlast))] at hloop
      obtain ⟨c', digits, htext, hlength, hsmall⟩ :=
        digitsLoop_negative p (n / base) _ _ r (Nat.pos_of_ne_zero hlast) hloop
      refine ⟨c', digits ++ [c], ?_, ?_, hsmall⟩
      · rw [htext, List.cons_append, List.cons_append, List.append_assoc]
        rfl
      · rw [heq, List.length_append, ← hlength]
        simp

/-! ## Width -/

/-- **The width** goes down, and comes back from below. -/
theorem iterate_decrement {w : Int} (hw : -128 ≤ w) (hw' : w ≤ 127) : ∀ k : Nat, k ≤ 127 →
    decrement^[k] w = if -128 ≤ w - k then w - k else w - k + 256
  | 0, _ => by
    rw [if_pos (by omega)]
    simp
  | k + 1, hk => by
    rw [Function.iterate_succ_apply', iterate_decrement hw hw' k (by omega), decrement]
    -- did it come back from below before this character, or with it?
    split
    · split
      · rw [if_neg (by omega)]
        omega
      · rw [if_pos (by omega)]
        omega
    · rw [if_neg (by omega), if_neg (by omega)]
      omega

/-- **The padding** is what is left of the width, if there is a place for it. -/
theorem paddingLoop_eq (padding : UInt8) : ∀ (p : Nat) (w : Int) (text : List UInt8),
    paddingLoop padding p w text =
      if w.toNat ≤ p then some (List.replicate w.toNat padding ++ text) else none
  | 0, w, text => by
    rw [paddingLoop]
    by_cases h : 0 < w
    · rw [if_pos h, if_neg (by omega)]
    · rw [if_neg h, if_pos (by omega), Int.toNat_of_nonpos (by omega)]
      rfl
  | p + 1, w, text => by
    rw [paddingLoop]
    by_cases h : 0 < w
    · obtain ⟨n, rfl⟩ : ∃ n : Nat, w = n + 1 := ⟨(w - 1).toNat, by omega⟩
      have hdecrement : decrement (n + 1) = n := by
        rw [decrement, if_neg (by omega)]
        omega
      have hwidth : ((n : Int) + 1).toNat = n + 1 := by omega
      rw [if_pos h, hdecrement, paddingLoop_eq padding p, hwidth, Int.toNat_natCast]
      by_cases hp : n ≤ p
      · rw [if_pos hp, if_pos (by omega), List.replicate_succ', List.append_assoc]
        rfl
      · rw [if_neg hp, if_neg (by omega)]
    · rw [if_neg h, if_pos (by omega), Int.toNat_of_nonpos (by omega)]
      rfl

/-! ## Reading back -/

include hbase hbase' in
/-- **The digits** are read back. -/
theorem foldlM_numeral (n : Nat) : (numeral base n).foldlM (readDigit base) 0 = some n := by
  induction n using Nat.strongRecOn with
  | ind n ih =>
    have hlt := Nat.mod_lt n (by omega : 0 < base)
    have hread : ∀ m, readDigit base m (digitChar (n % base)) = some (m * base + n % base) := by
      intro m
      have hindex := (digitChar_table (n % base) (by omega)).2
      rw [readDigit, hindex, if_pos hlt]
    rw [numeral_eq hbase, List.foldlM_append]
    split
    · next hlast =>
      show (readDigit base 0 _).bind _ = _
      rw [hread, Nat.mod_eq_of_lt (Nat.lt_of_div_eq_zero (by omega) hlast)]
      simp
    · next hmore =>
      have hpos : 0 < n := by
        rcases Nat.eq_zero_or_pos n with rfl | hpos
        · exact absurd (Nat.zero_div base) hmore
        · exact hpos
      rw [ih (n / base) (Nat.div_lt_self hpos hbase)]
      show (readDigit base (n / base) _).bind _ = _
      rw [hread, Nat.mul_comm, Nat.div_add_mod]
      rfl

include hbase in
/-- Zeros do not change the number. -/
theorem foldlM_zeros : ∀ (k : Nat) (text : List UInt8),
    (List.replicate k 0x30 ++ text).foldlM (readDigit base) 0 = text.foldlM (readDigit base) 0
  | 0, _ => rfl
  | k + 1, text => by
    have hzero : readDigit base 0 0x30 = some 0 := by
      have hindex : digitTable.idxOf 0x30 = 0 := by decide +kernel
      rw [readDigit, hindex, if_pos (by omega), Nat.zero_mul]
    rw [List.replicate_succ, List.cons_append, List.foldlM_cons, hzero]
    exact foldlM_zeros k text

include hbase hbase' in
/-- **Text with zeros** is read back. -/
theorem parse_printed (v w : Int) : parse base (printed base v w 0x30) = some v := by
  have hread : (List.replicate (w - naturalLength base v).toNat 0x30 ++
      numeral base v.natAbs).foldlM (readDigit base) 0 = some v.natAbs := by
    rw [foldlM_zeros hbase, foldlM_numeral hbase hbase']
  unfold parse printed sign
  by_cases hneg : v < 0
  · rw [if_pos hneg, List.append_assoc, List.singleton_append, List.head?_cons, if_pos rfl, List.tail_cons,
      hread, Option.map_some]
    congr 1
    omega
  · rw [if_neg hneg, List.nil_append, if_neg, hread, Option.map_some]
    · congr 1
      omega
    · -- without a sign the first character is a digit, no minus
      intro hhead
      have hmem := List.mem_of_mem_head? hhead
      have hminus : ¬ (0x30 : UInt8) ≤ 0x2D := by decide
      rcases List.mem_append.mp hmem with hmem | hmem
      · exact hminus ((List.eq_of_mem_replicate hmem).symm ▸ (by decide : (0x30 : UInt8) ≤ 0x30))
      · exact hminus (numeral_chars hbase hbase' _ _ hmem)

/-! ## Values -/

section

variable {t : IntegerType} {v : Int} (hv : t.Holds v)

/-- Half of the type's values are below zero, if any is. -/
theorem pow_bits (t : IntegerType) : (2 : Int) ^ t.bits = 2 * 2 ^ (t.bits - 1) := by
  have hbits : t.bits = t.bits - 1 + 1 := by
    rcases t.known with h | h | h | h <;> simp [IntegerType.bits, h]
  rw [← Int.pow_succ', ← hbits]

include hbase hv in
/-- There is room for the digits. -/
theorem numeral_fits : (numeral base v.natAbs).length ≤ 8 * t.size := by
  refine numeral_length_le hbase (by rcases t.known with h | h | h | h <;> omega) ?_
  obtain ⟨hlo, hhi⟩ := hv
  have hpow := pow_bits t
  have hcast : ((2 ^ (8 * t.size) : Nat) : Int) = 2 ^ t.bits := by
    rw [Int.natCast_pow]
    rfl
  have hpos : (0 : Int) < 2 ^ (t.bits - 1) := Int.pow_pos (by decide)
  unfold IntegerType.least at hlo hhi
  -- signed and unsigned types
  split at hlo
  · rw [if_pos ‹_›] at hhi
    omega
  · rw [if_neg ‹_›] at hhi
    omega

include hbase hv in
/-- No text is longer than the 64 digits of the widest type and a sign. -/
theorem naturalLength_le : naturalLength base v ≤ 65 := by
  have hfits := numeral_fits hbase hv
  have hsign : (sign v).length ≤ 1 := by
    unfold sign
    split
    · exact Nat.le_refl 1
    · exact Nat.zero_le 1
  have hsize : t.size ≤ 8 := by rcases t.known with h | h | h | h <;> omega
  unfold naturalLength
  omega

include hv in
/-- The sign and the absolute value, unless that is not of the type. -/
theorem adjust_eq (hleast : t.isSigned = true → v ≠ t.least) (destination : List UInt8) (w : Int) :
    adjust t destination v w =
      (destination ++ sign v, (v.natAbs : Int), decrement^[(sign v).length] w) := by
  obtain ⟨hlo, hhi⟩ := hv
  have hpow := pow_bits t
  unfold adjust sign
  by_cases hneg : v < 0
  · -- a value below zero is of a signed type
    by_cases hsigned : t.isSigned = true
    · have hne := hleast hsigned
      have hmin : t.least = -(2 ^ (t.bits - 1)) := by rw [IntegerType.least, if_pos hsigned]
      have hconvert : t.convert (-v) = v.natAbs := by
        rw [IntegerType.convert, Int.emod_eq_of_lt (by omega) (by omega)]
        omega
      rw [if_pos ⟨hsigned, hneg⟩, if_pos hneg, hconvert]
      rfl
    · rw [IntegerType.least, if_neg hsigned] at hlo
      omega
  · rw [if_neg fun h => hneg h.2, if_neg hneg, List.append_nil]
    have hcast : (v.natAbs : Int) = v := by omega
    rw [hcast]
    rfl

include hbase hbase' hv in
/-- **A value with an absolute value.** -/
theorem itoa_eq (hleast : t.isSigned = true → v ≠ t.least) (destination : List UInt8) (w : Int)
    (padding : UInt8) :
    itoa t base destination v w padding =
      if (decrement^[naturalLength base v] w).toNat ≤ 8 * t.size + 1 - (numeral base v.natAbs).length then
        some (destination ++ sign v ++ (List.replicate (decrement^[naturalLength base v] w).toNat padding ++
          numeral base v.natAbs))
      else none := by
  -- the sign and each of the digits take one off the width
  have hwidth : decrement^[(numeral base v.natAbs).length] (decrement^[(sign v).length] w) =
      decrement^[naturalLength base v] w := by
    rw [← Function.iterate_add_apply, Nat.add_comm]
    rfl
  have hfits := numeral_fits hbase hv
  unfold itoa
  dsimp only
  rw [adjust_eq hv hleast, digitsLoop_eq hbase hbase' _ _ _ _ (by omega), Option.bind_some, hwidth,
    List.append_nil, paddingLoop_eq]
  split
  · rfl
  · rfl

/-- **The most negative value** does not get printed. -/
theorem itoa_least (hsigned : t.isSigned = true) (hbase : 2 ≤ base) (hbase' : base ≤ 16)
    (destination : List UInt8) (w : Int) (padding : UInt8) :
    itoa t base destination t.least w padding ≠ some (destination ++ printed base t.least w padding) := by
  have hpow := pow_bits t
  have hpos : (0 : Int) < 2 ^ (t.bits - 1) := Int.pow_pos (by decide)
  have hmin : t.least = -(2 ^ (t.bits - 1)) := by rw [IntegerType.least, if_pos hsigned]
  -- its negation, converted, is the value itself
  have hstays : t.convert (-t.least) = -(t.least.natAbs : Int) := by
    have hmod : (-t.least - t.least) % 2 ^ t.bits = 0 := by
      rw [show -t.least - t.least = 2 ^ t.bits by omega, Int.emod_self]
    rw [IntegerType.convert, hmod]
    omega
  intro hprinted
  unfold itoa adjust at hprinted
  dsimp only at hprinted
  rw [if_pos ⟨hsigned, by omega⟩, hstays] at hprinted
  obtain ⟨r, hloop, hprinted⟩ := Option.bind_eq_some_iff.mp hprinted
  -- its first digit is no digit
  obtain ⟨c, digits, htext, hlength, hsmall⟩ := digitsLoop_negative hbase hbase' _ _ _ _ r (by omega) hloop
  rw [List.append_nil] at htext
  rw [paddingLoop_eq] at hprinted
  split at hprinted
  · obtain heq := Option.some.inj hprinted
    -- the last characters are the digits, on either side
    rw [printed, htext] at heq
    have heq' := (List.append_assoc ..).trans (heq.trans (List.append_assoc ..).symm)
    have hdigits := List.append_inj_right' heq' hlength
    have hchar := numeral_chars hbase hbase' t.least.natAbs c (by rw [← hdigits]; exact List.mem_cons_self)
    exact absurd hsmall (UInt8.not_lt.mpr hchar)
  · cases hprinted

end

end

/-- The text is what was asked for, as long as was asked for, and reads back if padded with zeros. -/
structure Prints (t : IntegerType) (base : Nat) (destination : List UInt8) (v w : Int) (padding : UInt8) :
    Prop where
  /-- as was asked for -/
  text : itoa t base destination v w padding = some (destination ++ printed base v w padding)
  /-- the width is a minimum -/
  length : ((printed base v w padding).length : Int) = max w (naturalLength base v)
  /-- zeros leave a number a number -/
  parses : padding = 0x30 → parse base (printed base v w padding) = some v

/-- `int` -/
def int32 : IntegerType := ⟨4, true, Or.inr (Or.inr (Or.inl rfl))⟩

/-- `signed char`, whose negation is made in `int` and comes back narrowed -/
def int8 : IntegerType := ⟨1, true, Or.inl rfl⟩

/-- What comes out after the sign of -128 is a slash, a dot and a parenthesis, no number; and a width
    of -128 becomes 127, which the buffer does not hold. -/
theorem itoa_misprints :
    int8.Holds (-128) ∧ int32.Holds 5 ∧
      itoa int8 10 [] (-128) 0 0x30 = some [0x2D, 0x2F, 0x2E, 0x28] ∧
      ¬ Prints int8 10 [] (-128) 0 0x30 ∧
      itoa int32 10 [] 5 (-128) 0x20 = none ∧ ¬ Prints int32 10 [] 5 (-128) 0x20 := by
  have hleast : int8.least = -128 := by decide +kernel
  have hleast32 : int32.least = -2147483648 := by decide +kernel
  have hbuffer : itoa int32 10 [] 5 (-128) 0x20 = none := by decide +kernel
  refine ⟨?_, ?_, by decide +kernel, fun hprints => ?_, hbuffer, fun hprints => ?_⟩
  · rw [IntegerType.Holds, hleast]
    decide
  · rw [IntegerType.Holds, hleast32]
    decide
  · exact itoa_least (t := int8) rfl (by decide) (by decide) [] 0 0x30 (hleast ▸ hprints.text)
  · cases hbuffer.symm.trans hprints.text

/-- **`itoa` prints** every value of every type in every base, exactly when it is not the most negative
    one and the width does not go below -128. -/
theorem itoa_prints (t : IntegerType) (base : Nat) (hbase : 2 ≤ base) (hbase' : base ≤ 16)
    (destination : List UInt8) (v : Int) (hv : t.Holds v) (w : Int) (hw : -128 ≤ w) (hw' : w ≤ 127)
    (hbuffer : w ≤ 8 * t.size + 1) (padding : UInt8) :
    Prints t base destination v w padding ↔
      (t.isSigned = true → v ≠ t.least) ∧ -128 ≤ w - naturalLength base v := by
  have hnatural := naturalLength_le hbase hv
  have hfits := numeral_fits hbase hv
  have hwidth := iterate_decrement hw hw' (naturalLength base v) (by omega)
  have hsum : naturalLength base v = (sign v).length + (numeral base v.natAbs).length := rfl
  constructor
  · -- neither of the two ways to go wrong was taken
    intro hprints
    have hleast : t.isSigned = true → v ≠ t.least := by
      rintro hsigned rfl
      exact itoa_least hsigned hbase hbase' destination w padding hprints.text
    refine ⟨hleast, ?_⟩
    by_contra hbelow
    rw [if_neg hbelow] at hwidth
    have htext := hprints.text
    rw [itoa_eq hbase hbase' hv hleast, hwidth] at htext
    split at htext
    · have hlength := congrArg List.length (Option.some.inj htext)
      simp only [printed, List.length_append, List.length_replicate] at hlength
      omega
    · cases htext
  · -- the width stays above, so what is left of it is the padding
    rintro ⟨hleast, habove⟩
    rw [if_pos habove] at hwidth
    refine ⟨?_, ?_, ?_⟩
    · rw [itoa_eq hbase hbase' hv hleast, hwidth, if_pos (by omega), printed, List.append_assoc,
        List.append_assoc]
    · simp only [printed, List.length_append, List.length_replicate]
      omega
    · rintro rfl
      exact parse_printed hbase hbase' v w

/-- "-031415926" -/
theorem itoa_prints_negative :
    Prints int32 10 [] (-31415926) 10 0x30 ∧
      itoa int32 10 [] (-31415926) 10 0x30 =
        some [0x2D, 0x30, 0x33, 0x31, 0x34, 0x31, 0x35, 0x39, 0x32, 0x36] := by
  have hleast : int32.least = -2147483648 := by decide +kernel
  have hv : int32.Holds (-31415926) := by
    rw [IntegerType.Holds, hleast]
    decide
  have hnatural := naturalLength_le (by decide : 2 ≤ 10) hv
  refine ⟨(itoa_prints int32 10 (by decide) (by decide) [] (-31415926) hv 10 (by decide) (by decide)
    (by decide) 0x30).mpr ⟨fun _ => ?_, by omega⟩, by decide +kernel⟩
  rw [hleast]
  decide

end Formatting

end MicroProfiler
