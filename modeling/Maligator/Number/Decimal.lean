/-
Decimal literals: the fast path of mal_number_parse_decimal in number_text.c.

The scan keeps the first nineteen significant digits and an exponent; the result is the significand scaled by a power of ten
in one operation, so it is right when significand and exponent stand for the value of the text.

They do unless digits that are not all zero meet an explicit exponent of 10^7 or more: the exponent then stops short of its
value (`exponentDigits_exact`), which a long run of fraction zeros can hide (`parseDecimal_saturates`).
-/
import Mathlib.Algebra.Order.Field.Rat
import Mathlib.Data.List.TakeWhile
import Mathlib.Tactic.FieldSimp
import Mathlib.Tactic.Ring

namespace Maligator.NumberText

open List

def isDigit (unit : UInt8) : Bool := unit - 48 < 10

def isSign (unit : UInt8) : Bool := unit == 43 || unit == 45

def isExponent (unit : UInt8) : Bool := unit == 101 || unit == 69

def skipSign : List UInt8 → List UInt8
  | unit :: rest => if isSign unit then rest else unit :: rest
  | [] => []

def readFraction : List UInt8 → List UInt8 × List UInt8
  | 46 :: rest => (rest.takeWhile isDigit, rest.dropWhile isDigit)
  | text => ([], text)

def decimalPrefixLength (text : List UInt8) : ℕ :=
  let start := skipSign text
  let (fraction, tail) := readFraction (start.dropWhile isDigit)
  if start.takeWhile isDigit = [] ∧ fraction = [] then 0
  else
    match tail with
    | unit :: rest =>
      if isExponent unit ∧ (skipSign rest).takeWhile isDigit ≠ [] then
        text.length - ((skipSign rest).dropWhile isDigit).length
      else text.length - tail.length
    | [] => text.length

/-- what mal_number_parse_decimal has gathered at the cursor -/
structure Scan where
  significand : ℕ := 0
  digits : ℕ := 0
  exponent : ℤ := 0
  truncated : Bool := false

def digitOf (unit : UInt8) : ℕ := unit.toNat - 48

/-- a digit before the point; nineteen digits fit in 64 bits -/
def integerDigit (scan : Scan) (unit : UInt8) : Scan :=
  if scan.digits = 0 ∧ digitOf unit = 0 then scan
  else if scan.digits < 19 then
    { scan with significand := scan.significand * 10 + digitOf unit, digits := scan.digits + 1 }
  else { scan with exponent := scan.exponent + 1, truncated := scan.truncated || digitOf unit != 0 }

def fractionDigit (scan : Scan) (unit : UInt8) : Scan :=
  if scan.digits = 0 ∧ digitOf unit = 0 then { scan with exponent := scan.exponent - 1 }
  else if scan.digits < 19 then
    { scan with
      significand := scan.significand * 10 + digitOf unit
      digits := scan.digits + 1
      exponent := scan.exponent - 1 }
  else { scan with truncated := scan.truncated || digitOf unit != 0 }

/-- a digit of the explicit exponent, which saturates -/
def exponentDigit (exponent : ℕ) (unit : UInt8) : ℕ :=
  if exponent < 1000000 then exponent * 10 + digitOf unit else exponent

def readExponent : List UInt8 → Bool × List UInt8
  | unit :: rest =>
    if isExponent unit then (rest.head? == some 45, (skipSign rest).takeWhile isDigit) else (false, [])
  | [] => (false, [])

def signed (negative : Bool) (n : ℕ) : ℤ := if negative then -n else n

def scanDecimal (text : List UInt8) : Scan :=
  let start := skipSign text
  let (fraction, tail) := readFraction (start.dropWhile isDigit)
  let scan := fraction.foldl fractionDigit ((start.takeWhile isDigit).foldl integerDigit {})
  let (negative, digits) := readExponent tail
  { scan with exponent := scan.exponent + signed negative (digits.foldl exponentDigit 0) }

def moveExponent (significand : ℕ) (exponent : ℤ) : ℕ × ℤ :=
  if 22 < exponent ∧ significand ≤ 2 ^ 53 / 10 then moveExponent (significand * 10) (exponent - 1)
  else (significand, exponent)
termination_by (exponent - 22).toNat

/-- the operands of the one floating-point operation -/
structure Scaled where
  negative : Bool
  significand : ℕ
  exponent : ℤ
deriving DecidableEq

/-- mal_number_parse_decimal; `none` is the slow path -/
def parseDecimal (text : List UInt8) : Option Scaled :=
  let negative := text.head? == some 45
  let scan := scanDecimal text
  if scan.significand = 0 then some ⟨negative, 0, 0⟩
  else if !scan.truncated ∧ scan.significand ≤ 2 ^ 53 then
    let (significand, exponent) := moveExponent scan.significand scan.exponent
    if -22 ≤ exponent ∧ exponent ≤ 22 then some ⟨negative, significand, exponent⟩ else none
  else none

/-! ## The value of a text -/

def appendDigit (n : ℕ) (unit : UInt8) : ℕ := n * 10 + digitOf unit

def digitsValue (digits : List UInt8) : ℕ := digits.foldl appendDigit 0

def exponentDigits (text : List UInt8) : List UInt8 :=
  (readExponent (readFraction ((skipSign text).dropWhile isDigit)).2).2

/-- the digits before and behind the point -/
def significandDigits (text : List UInt8) : List UInt8 :=
  (skipSign text).takeWhile isDigit ++ (readFraction ((skipSign text).dropWhile isDigit)).1

/-- the value of the digits, scaled by an explicit exponent of `n` and the digits behind the point -/
def scaledDigits (text : List UInt8) (n : ℕ) : ℚ :=
  let (fraction, tail) := readFraction ((skipSign text).dropWhile isDigit)
  digitsValue (significandDigits text) * 10 ^ (signed (readExponent tail).1 n - fraction.length)

def magnitude (text : List UInt8) : ℚ := scaledDigits text (digitsValue (exponentDigits text))

def textValue (text : List UInt8) : Option ℚ :=
  if text ≠ [] ∧ decimalPrefixLength text = text.length then
    some ((if text.head? == some 45 then -1 else 1) * magnitude text)
  else none

def Scaled.value (x : Scaled) : ℚ := (if x.negative then -1 else 1) * (x.significand * 10 ^ x.exponent)

/-! ## Scanning -/

/-- a scan that has read digits of value V, `places` of them behind the point -/
structure Reads (scan : Scan) (places V : ℕ) : Prop where
  empty : scan.digits = 0 ↔ scan.significand = 0
  zero : scan.significand = 0 → V = 0
  place : scan.digits < 19 → scan.exponent = -places
  value : scan.truncated = false → (scan.significand : ℚ) * 10 ^ scan.exponent = V * 10 ^ (-places : ℤ)

variable {scan : Scan} {places V : ℕ}

theorem Reads.integerDigit (h : Reads scan 0 V) (unit : UInt8) :
    Reads (integerDigit scan unit) 0 (appendDigit V unit) := by
  obtain ⟨hempty, hzero, hplace, hvalue⟩ := h
  rw [NumberText.integerDigit, appendDigit]
  split_ifs with hskip hroom
  · have hV := hzero (hempty.1 hskip.1)
    simpa [hV, hskip.2] using Reads.mk hempty hzero hplace hvalue
  · have hexp := hplace hroom
    refine ⟨by simp; omega, by simp; omega, fun _ => hexp, fun ht => ?_⟩
    have hv := hvalue ht
    simp only [hexp] at hv ⊢
    simp at hv
    simp [hv]
  refine ⟨hempty, fun hs => ?_, by simp; omega, fun ht => ?_⟩
  · exact absurd (hempty.2 hs) (by omega)
  · simp only [Bool.or_eq_false_iff, bne_eq_false_iff_eq] at ht
    have hv := hvalue ht.1
    simp only [ht.2, zpow_add_one₀ (by norm_num : (10 : ℚ) ≠ 0), ← mul_assoc, hv]
    push_cast
    ring

theorem Reads.fractionDigit (h : Reads scan places V) (unit : UInt8) :
    Reads (fractionDigit scan unit) (places + 1) (appendDigit V unit) := by
  obtain ⟨hempty, hzero, hplace, hvalue⟩ := h
  have hten : (10 : ℚ) ≠ 0 := by norm_num
  have hstep : (10 : ℚ) ^ (-((places + 1 : ℕ) : ℤ)) = 10 ^ (-places : ℤ) / 10 := by
    rw [show (-((places + 1 : ℕ) : ℤ)) = -places - 1 by push_cast; ring, zpow_sub_one₀ hten, div_eq_mul_inv]
  rw [NumberText.fractionDigit, appendDigit]
  split_ifs with hskip hroom
  · have hs := hempty.1 hskip.1
    have hV := hzero hs
    refine ⟨hempty, fun _ => by simp [hV, hskip.2], fun hr => ?_, fun _ => by simp [hs, hV, hskip.2]⟩
    simp [hplace hr]
    ring
  · have hexp := hplace hroom
    refine ⟨by simp; omega, by simp; omega, fun _ => by simp [hexp]; ring, fun ht => ?_⟩
    have hv := hvalue ht
    simp only [hexp] at hv ⊢
    have hV : (scan.significand : ℚ) = V := mul_right_cancel₀ (zpow_ne_zero _ hten) hv
    rw [hstep, zpow_sub_one₀ hten]
    push_cast
    rw [hV, div_eq_mul_inv]
  · refine ⟨hempty, fun hs => absurd (hempty.2 hs) (by omega), by simp; omega, fun ht => ?_⟩
    simp only [Bool.or_eq_false_iff, bne_eq_false_iff_eq] at ht
    rw [hvalue ht.1, hstep, ht.2]
    push_cast
    ring

theorem reads_integer (digits : List UInt8) (h : Reads scan 0 V) :
    Reads (digits.foldl integerDigit scan) 0 (digits.foldl appendDigit V) := by
  induction digits generalizing scan V with
  | nil => exact h
  | cons unit digits ih => exact ih (h.integerDigit unit)

theorem reads_fraction (digits : List UInt8) (h : Reads scan places V) :
    Reads (digits.foldl fractionDigit scan) (places + digits.length) (digits.foldl appendDigit V) := by
  induction digits generalizing scan places V with
  | nil => exact h
  | cons unit digits ih =>
    rw [length_cons, ← add_assoc, add_right_comm]
    exact ih (h.fractionDigit unit)

theorem le_appendDigits (digits : List UInt8) : ∀ n : ℕ, n ≤ digits.foldl appendDigit n := by
  induction digits with
  | nil => exact fun n => le_rfl
  | cons unit digits ih => exact fun n => le_trans (by rw [appendDigit]; omega) (ih (appendDigit n unit))

theorem exponentDigits_lt (digits : List UInt8) (hdigits : ∀ unit ∈ digits, isDigit unit = true) :
    ∀ n < 10 ^ 7, digits.foldl exponentDigit n < 10 ^ 7 := by
  induction digits with
  | nil => exact fun n hn => hn
  | cons unit digits ih =>
    refine fun n hn => ih (fun u hu => hdigits u (mem_cons_of_mem _ hu)) _ ?_
    have hdigit : digitOf unit < 10 := by
      have := hdigits unit (mem_cons_self ..)
      rw [isDigit, decide_eq_true_eq, UInt8.lt_iff_toNat_lt, UInt8.toNat_sub] at this
      have := unit.toNat_lt
      simp only [digitOf, UInt8.toNat_ofNat] at *
      omega
    rw [exponentDigit]
    split_ifs <;> omega

/-- the exponent is read in full exactly when it is below 10^7 -/
theorem exponentDigits_exact (digits : List UInt8) (hdigits : ∀ unit ∈ digits, isDigit unit = true) :
    digits.foldl exponentDigit 0 = digitsValue digits ↔ digitsValue digits < 10 ^ 7 := by
  refine ⟨fun h => h ▸ exponentDigits_lt digits hdigits 0 (by norm_num), ?_⟩
  rw [digitsValue]
  clear hdigits
  generalize 0 = n
  induction digits generalizing n with
  | nil => exact fun _ => rfl
  | cons unit digits ih =>
    intro h
    have hle := le_appendDigits digits (appendDigit n unit)
    rw [appendDigit] at hle
    rw [foldl_cons, appendDigit] at h
    rw [foldl_cons, foldl_cons, exponentDigit, if_pos (by omega)]
    exact ih _ h

theorem moveExponent_value (significand : ℕ) (exponent : ℤ) :
    ((moveExponent significand exponent).1 : ℚ) * 10 ^ (moveExponent significand exponent).2 =
      significand * 10 ^ exponent := by
  fun_induction moveExponent significand exponent with
  | case1 significand exponent h ih =>
    rw [ih, zpow_sub_one₀ (by norm_num)]
    push_cast
    field_simp
  | case2 => rfl

theorem scanDecimal_value (text : List UInt8) :
    ((scanDecimal text).significand = 0 → digitsValue (significandDigits text) = 0) ∧
      ((scanDecimal text).truncated = false → (scanDecimal text).significand * 10 ^ (scanDecimal text).exponent =
        scaledDigits text ((exponentDigits text).foldl exponentDigit 0)) := by
  have hstart : Reads {} 0 0 := ⟨by simp, by simp, by simp, by simp⟩
  have hreads := reads_fraction (readFraction ((skipSign text).dropWhile isDigit)).1
    (reads_integer ((skipSign text).takeWhile isDigit) hstart)
  rw [← foldl_append, zero_add] at hreads
  refine ⟨hreads.zero, fun ht => ?_⟩
  have hten : (10 : ℚ) ≠ 0 := by norm_num
  simp only [scanDecimal, scaledDigits, exponentDigits, significandDigits, digitsValue, sub_eq_add_neg, zpow_add₀ hten]
  rw [← mul_assoc, hreads.value ht, mul_right_comm, mul_assoc]

/-- what the fast path scales -/
theorem parseDecimal_value {text : List UInt8} {x : Scaled} (hx : parseDecimal text = some x) :
    x.value = (if text.head? == some 45 then -1 else 1) *
      scaledDigits text ((exponentDigits text).foldl exponentDigit 0) := by
  obtain ⟨hzero, hvalue⟩ := scanDecimal_value text
  simp only [parseDecimal] at hx
  split_ifs at hx with hs hexactly hrange
  · obtain rfl := Option.some.inj hx
    simp [Scaled.value, scaledDigits, hzero hs]
  obtain rfl := Option.some.inj hx
  simp only [Scaled.value, moveExponent_value]
  rw [hvalue (by simpa using hexactly.1)]

theorem scaledDigits_inj {text : List UInt8} {n m : ℕ} :
    scaledDigits text n = scaledDigits text m ↔ digitsValue (significandDigits text) = 0 ∨ n = m := by
  have hpow : Function.Injective fun k : ℤ => (10 : ℚ) ^ k := zpow_right_injective₀ (by norm_num) (by norm_num)
  have hsigned : ∀ negative, signed negative n = signed negative m ↔ n = m := by
    intro negative
    cases negative <;> simp [signed]
  simp only [scaledDigits]
  rw [mul_eq_mul_left_iff, hpow.eq_iff, sub_left_inj, hsigned, Nat.cast_eq_zero, or_comm]

/-- **The fast path scales the value of the text** exactly when its digits are zero or the explicit exponent is below
10^7. -/
theorem parseDecimal_exact {text : List UInt8} {x : Scaled} {v : ℚ} (hv : textValue text = some v)
    (hx : parseDecimal text = some x) :
    x.value = v ↔ digitsValue (significandDigits text) = 0 ∨ digitsValue (exponentDigits text) < 10 ^ 7 := by
  have hdigits : ∀ unit ∈ exponentDigits text, isDigit unit = true := by
    intro unit hunit
    unfold exponentDigits readExponent at hunit
    split at hunit
    · split_ifs at hunit
      · exact mem_takeWhile_imp hunit
      · cases hunit
    · cases hunit
  simp only [textValue, Option.ite_none_right_eq_some, Option.some.injEq] at hv
  obtain ⟨-, rfl⟩ := hv
  have hsign : (if text.head? == some 45 then -1 else 1 : ℚ) ≠ 0 := by split_ifs <;> norm_num
  rw [parseDecimal_value hx, magnitude, mul_right_inj' hsign, scaledDigits_inj, exponentDigits_exact _ hdigits]

/-- 1.5e3 is fifteen hundred -/
theorem parseDecimal_exact_short :
    textValue [49, 46, 53, 101, 51] = some 1500 ∧ parseDecimal [49, 46, 53, 101, 51] = some ⟨false, 15, 2⟩ ∧
      (⟨false, 15, 2⟩ : Scaled).value = 1500 := by
  have hmove : moveExponent 15 2 = (15, 2) := by rw [moveExponent, if_neg (by decide)]
  have hscan : scanDecimal [49, 46, 53, 101, 51] = ⟨15, 2, 2, false⟩ := by rfl
  have hv : textValue [49, 46, 53, 101, 51] = some 1500 := by decide +kernel
  have hx : parseDecimal [49, 46, 53, 101, 51] = some ⟨false, 15, 2⟩ := by
    simp only [parseDecimal, hscan, hmove]
    rfl
  exact ⟨hv, hx, (parseDecimal_exact hv hx).2 (.inr (by decide))⟩

/-- a point, `zeros` zeros and 1e10000000 -/
def longFraction (zeros : ℕ) : List UInt8 :=
  46 :: (replicate zeros 48 ++ [49, 101, 49, 48, 48, 48, 48, 48, 48, 48])

theorem readFraction_long (zeros : ℕ) : readFraction (longFraction zeros) =
      (replicate zeros 48 ++ [49], [101, 49, 48, 48, 48, 48, 48, 48, 48]) := by
  have hzeros : ∀ unit ∈ replicate zeros (48 : UInt8), isDigit unit := by
    intro unit hunit
    rw [eq_of_mem_replicate hunit]
    rfl
  rw [longFraction, readFraction, takeWhile_append_of_pos hzeros, dropWhile_append_of_pos hzeros]
  rfl

theorem readExponent_long :
    readExponent [101, 49, 48, 48, 48, 48, 48, 48, 48] = (false, [49, 48, 48, 48, 48, 48, 48, 48]) := rfl

theorem integerPart_long (zeros : ℕ) : (skipSign (longFraction zeros)).dropWhile isDigit = longFraction zeros ∧
    (skipSign (longFraction zeros)).takeWhile isDigit = [] := ⟨rfl, rfl⟩

theorem scanDecimal_long (zeros : ℕ) : scanDecimal (longFraction zeros) = ⟨1, 1, 1000000 - (zeros + 1), false⟩ := by
  have hzeros : ∀ n : ℕ, (replicate n (48 : UInt8)).foldl fractionDigit {} = { exponent := -n } := by
    intro n
    induction n with
    | zero => rfl
    | succ n ih =>
      rw [replicate_succ', foldl_append, ih]
      simp [fractionDigit, digitOf]
      ring
  have hexponent : [49, 48, 48, 48, 48, 48, 48, 48].foldl exponentDigit 0 = 1000000 := by
    decide +kernel
  have hlast : [49].foldl fractionDigit { exponent := -zeros } = ⟨1, 1, -zeros - 1, false⟩ := rfl
  simp only [scanDecimal, integerPart_long, readFraction_long, foldl_append, foldl_nil, hzeros, hlast, readExponent_long,
    hexponent]
  simp [signed]
  ring

theorem digitsValue_pad (zeros : ℕ) (digits : List UInt8) : digitsValue (replicate zeros 48 ++ digits) = digitsValue digits := by
  induction zeros with
  | zero => rfl
  | succ zeros ih => exact ih

theorem textValue_long (zeros : ℕ) : textValue (longFraction zeros) = some (10 ^ (10000000 - (zeros + 1) : ℤ)) := by
  have hlength : decimalPrefixLength (longFraction zeros) = (longFraction zeros).length := by
    simp only [decimalPrefixLength, integerPart_long, readFraction_long]
    rw [if_neg (by simp)]
    rfl
  have hmagnitude : magnitude (longFraction zeros) = 10 ^ (10000000 - (zeros + 1) : ℤ) := by
    have hexponent : signed false (digitsValue [49, 48, 48, 48, 48, 48, 48, 48]) = 10000000 := by
      simp [digitsValue, appendDigit, digitOf, signed]
    simp only [magnitude, scaledDigits, significandDigits, exponentDigits, integerPart_long, readFraction_long, nil_append,
      readExponent_long, hexponent]
    simp [digitsValue_pad, show digitsValue [49] = 1 from rfl]
  rw [textValue, if_pos ⟨cons_ne_nil _ _, hlength⟩, hmagnitude]
  simp [longFraction]

/-- the explicit exponent stops at a million: the scan stands for 1, the text for 10^9000000 -/
theorem parseDecimal_saturates :
    textValue (longFraction 999999) = some (10 ^ (9000000 : ℤ)) ∧
      parseDecimal (longFraction 999999) = some ⟨false, 1, 0⟩ ∧
      (⟨false, 1, 0⟩ : Scaled).value ≠ 10 ^ (9000000 : ℤ) := by
  have hmove : moveExponent 1 0 = (1, 0) := by rw [moveExponent, if_neg (by decide)]
  have hscan : scanDecimal (longFraction 999999) = ⟨1, 1, 0, false⟩ := by
    rw [scanDecimal_long]
    norm_num
  have hvalue : (10000000 - ((999999 : ℕ) + 1) : ℤ) = 9000000 := by norm_num
  refine ⟨by rw [textValue_long, hvalue], ?_, ?_⟩
  · have hone : ∀ text : List UInt8, text.head? = some 46 → scanDecimal text = ⟨1, 1, 0, false⟩ →
        parseDecimal text = some ⟨false, 1, 0⟩ := by
      intro text hhead hscan
      simp [parseDecimal, hscan, hmove, hhead]
    exact hone _ head?_cons hscan
  · have hone : ∀ k : ℤ, 0 < k → (⟨false, 1, 0⟩ : Scaled).value ≠ 10 ^ k := by
      intro k hk
      have hlt : (1 : ℚ) < 10 ^ k := one_lt_zpow₀ (by norm_num) hk
      simpa [Scaled.value] using hlt.ne
    exact hone 9000000 (by norm_num)

end Maligator.NumberText
