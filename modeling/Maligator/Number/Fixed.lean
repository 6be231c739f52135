/-
The fast path of toFixed: mal_number_format_fixed_plain in number_text.c.

The value scaled by 10^f is significand * 5^f * 2^(exponent + f), held in 128 bits and rounded by adding half of what is
dropped. `none` is behaviour C leaves undefined: a shift by 128 or more, or a store behind the digit buffer.
-/
import Maligator.Lib.Binary64
import Maligator.Number.Decimal

namespace Maligator.FixedText

open List Option Binary64
open NumberText (digitsValue digitsValue_pad appendDigit digitOf isDigit)

def powersOfFive : List ℕ :=
  [1, 5, 25, 125, 625, 3125, 15625, 78125, 390625, 1953125, 9765625, 48828125, 244140625, 1220703125, 6103515625,
    30517578125, 152587890625, 762939453125, 3814697265625, 19073486328125, 95367431640625]

/-- `<<` of a 128-bit word -/
def shl128 (x shift : ℕ) : Option ℕ := if shift < 128 then some (x * 2 ^ shift % 2 ^ 128) else none

/-- `>>` of a 128-bit word -/
def shr128 (x shift : ℕ) : Option ℕ := if shift < 128 then some (x / 2 ^ shift) else none

def scaledDigits (value : BitVec 64) (fractionDigits : ℕ) : Option ℕ :=
  -- below 2^-70
  if magnitude value < 2 ^ 1004 then some 0
  else
    let significand := fracField value ||| 2 ^ 52
    let scaled := significand * powersOfFive.getD fractionDigits 0 % 2 ^ 128
    let drop : ℤ := -((expField value : ℤ) - 1075 + fractionDigits)
    if drop ≤ 0 then shl128 scaled (-drop).toNat
    else (shl128 1 (drop - 1).toNat).bind fun half => shr128 ((scaled + half) % 2 ^ 128) drop.toNat

/-- the loop over the digits of a number, with `room` bytes of the buffer left; the buffer is held last byte first -/
def digitLoop : ℕ → ℕ → List UInt8 → Option (List UInt8)
  | 0, _, _ => none
  | room + 1, digits, reversed =>
    let reversed := UInt8.ofNat (48 + digits % 10) :: reversed
    if digits / 10 = 0 then some reversed else digitLoop room (digits / 10) reversed

def padDigits (fractionDigits : ℕ) (reversed : List UInt8) : Option (List UInt8) :=
  let padded := replicate (fractionDigits + 1 - reversed.length) 48 ++ reversed
  if padded.length ≤ 21 then some padded else none

/-- the loop that writes the digits: the index is the number of digits left -/
def writeDigits (fractionDigits : ℕ) : List UInt8 → List UInt8
  | [] => []
  | digit :: rest =>
    (if rest.length + 1 = fractionDigits then [46] else []) ++ digit :: writeDigits fractionDigits rest

/-- mal_number_format_fixed_plain; the empty text is the return value 0 -/
def formatFixedPlain (value : BitVec 64) (fractionDigits : ℕ) : Option (List UInt8) :=
  if 20 < fractionDigits ∨ expField value = 2047 ∨ 2 ^ 53 * unit ≤ magnitude value then some []
  else
    (scaledDigits value fractionDigits).bind fun digits =>
      if digits / 2 ^ 64 ≠ 0 then some []
      else
        (digitLoop 21 digits []).bind fun reversed =>
          (padDigits fractionDigits reversed).map fun reversed =>
            (if signBit value ∧ magnitude value ≠ 0 then [45] else []) ++ writeDigits fractionDigits reversed

/-! ## Rounding -/

/-- n is the integer for which n/10^f is nearest to x, the larger one on a tie -/
structure Nearest (x : ℚ) (f : ℕ) (n : ℤ) : Prop where
  least : ∀ k : ℤ, |n / 10 ^ f - x| ≤ |k / 10 ^ f - x|
  larger : ∀ k : ℤ, |k / 10 ^ f - x| = |n / 10 ^ f - x| → k ≤ n

theorem nearest_round (x : ℚ) (f : ℕ) : Nearest x f (round (x * 10 ^ f)) := by
  have hten : (0 : ℚ) < 10 ^ f := by positivity
  have hscale : ∀ k : ℤ, |k / 10 ^ f - x| = |x * 10 ^ f - k| / 10 ^ f := by
    intro k
    rw [abs_sub_comm, ← abs_of_pos hten, ← abs_div, abs_of_pos hten, sub_div, mul_div_cancel_right₀ _ hten.ne']
  constructor
  · intro k
    rw [hscale, hscale]
    exact div_le_div_of_nonneg_right (round_le _ k) hten.le
  intro k heq
  rw [hscale, hscale, div_left_inj' hten.ne'] at heq
  -- a larger integer is more than a half away
  by_contra hk
  have hfar : x * 10 ^ f + 1 / 2 < k := by
    rw [not_le, round_eq] at hk
    exact Int.floor_lt.1 hk
  have hnear := abs_sub_round (x * 10 ^ f)
  have hle := neg_le_abs (x * 10 ^ f - k)
  linarith

theorem round_units (m f : ℕ) : round ((m : ℚ) / unit * 10 ^ f) = ((2 * (m * 10 ^ f) + unit) / (2 * unit) : ℕ) := by
  have hunit : (unit : ℚ) ≠ 0 := by exact_mod_cast unit_pos.ne'
  rw [round_eq, Int.natCast_div, ← Rat.floor_natCast_div_natCast]
  congr 1
  push_cast
  field_simp

theorem powersOfFive_getD : ∀ f < 21, powersOfFive.getD f 0 = 5 ^ f := by decide

theorem or_implicit_bit {frac : ℕ} (hlt : frac < 2 ^ 52) : frac ||| 2 ^ 52 = 2 ^ 52 + frac := by
  rw [Nat.or_comm]
  exact (Nat.two_pow_add_eq_or_of_lt hlt 1).symm

variable {value : BitVec 64} {f : ℕ}

theorem exponent_bounds (hlow : 2 ^ 1004 ≤ magnitude value) (hhigh : magnitude value < 2 ^ 53 * unit) :
    953 ≤ expField value ∧ expField value ≤ 1075 ∧
      magnitude value = (2 ^ 52 + fracField value) * 2 ^ (expField value - 1) := by
  have hlt : fracField value < 2 ^ 52 := Nat.mod_lt _ (by positivity)
  rw [magnitude] at hlow hhigh ⊢
  split_ifs at hlow hhigh ⊢ with he
  · exact absurd ((Nat.pow_lt_pow_iff_right Nat.one_lt_two).1 (hlow.trans_lt hlt)) (by decide)
  have hbelow : (2 ^ 52 + fracField value) * 2 ^ (expField value - 1) < 2 ^ 53 * 2 ^ (expField value - 1) :=
    Nat.mul_lt_mul_of_pos_right (by omega) (Nat.two_pow_pos _)
  have habove : 2 ^ 52 * 2 ^ (expField value - 1) ≤ (2 ^ 52 + fracField value) * 2 ^ (expField value - 1) :=
    Nat.mul_le_mul_right _ (Nat.le_add_right _ _)
  replace hlow := hlow.trans_lt hbelow
  replace hhigh := habove.trans_lt hhigh
  rw [← pow_add, Nat.pow_lt_pow_iff_right (by decide)] at hlow
  rw [unit, ← pow_add, ← pow_add, Nat.pow_lt_pow_iff_right (by decide)] at hhigh
  exact ⟨by omega, by omega, rfl⟩

/-- **The rounded product.** No shift is out of range and no bit is lost. -/
theorem scaledDigits_round (hf : f ≤ 20) (hhigh : magnitude value < 2 ^ 53 * unit) :
    scaledDigits value f = some ((2 * (magnitude value * 10 ^ f) + unit) / (2 * unit)) := by
  rw [scaledDigits]
  split_ifs with hsmall
  · have hten : 10 ^ f ≤ 10 ^ 20 := Nat.pow_le_pow_right (by decide) hf
    have hhalf : 2 * (magnitude value * 10 ^ f) < unit := by
      calc 2 * (magnitude value * 10 ^ f) ≤ 2 * (2 ^ 1004 * 2 ^ 67) :=
            Nat.mul_le_mul_left 2 (Nat.mul_le_mul hsmall.le (hten.trans (by decide)))
        _ = 2 ^ 1072 := by rw [← pow_add, ← pow_succ']
        _ < unit := by rw [unit]; omega
    rw [Nat.div_eq_of_lt (by omega)]
  obtain ⟨hlow, hlarge, hmag⟩ := exponent_bounds (not_lt.1 hsmall) hhigh
  have hfrac : fracField value < 2 ^ 52 := Nat.mod_lt _ (by positivity)
  have hdouble : 2 * (magnitude value * 10 ^ f) = (2 ^ 52 + fracField value) * 5 ^ f * 2 ^ (expField value + f) := by
    obtain ⟨e, he⟩ := Nat.exists_eq_add_of_lt (by omega : 0 < expField value)
    rw [hmag, he, show (10 : ℕ) = 5 * 2 by rfl, mul_pow, Nat.add_sub_cancel]
    ring
  have hfive : 5 ^ f ≤ 5 ^ 20 := Nat.pow_le_pow_right (by decide) hf
  have hbound : (2 ^ 52 + fracField value) * 5 ^ f < 2 ^ 53 * 2 ^ 47 :=
    Nat.mul_lt_mul_of_lt_of_le (by omega) (hfive.trans (by decide)) (by decide)
  dsimp only
  rw [hdouble, or_implicit_bit hfrac, powersOfFive_getD f (by omega)]
  generalize (2 ^ 52 + fracField value) * 5 ^ f = product at *
  rw [Nat.mod_eq_of_lt (by omega : product < 2 ^ 128)]
  split_ifs with hdrop
  · obtain ⟨k, hk⟩ := Nat.exists_eq_add_of_le (by omega : 1075 ≤ expField value + f)
    have hshift : product * 2 ^ k ≤ product * 2 ^ 20 := Nat.mul_le_mul_left _ (Nat.pow_le_pow_right (by decide) (by omega))
    have hsplit : product * 2 ^ (1075 + k) + unit = unit + 2 * unit * (product * 2 ^ k) := by
      rw [pow_add, show 2 ^ 1075 = 2 * unit by rw [unit, ← pow_succ']]
      ring
    rw [show (- -((expField value : ℤ) - 1075 + f)).toNat = k by omega, hk, hsplit, Nat.add_mul_div_left _ _ (by omega),
      Nat.div_eq_of_lt (by omega), zero_add, shl128, if_pos (by omega), Nat.mod_eq_of_lt (by omega)]
  obtain ⟨d, hd⟩ := Nat.exists_eq_add_of_lt (by omega : expField value + f < 1075)
  have hhalf : 2 ^ d ≤ 2 ^ 121 := Nat.pow_le_pow_right (by decide) (by omega)
  have hsplit : unit = 2 ^ (expField value + f) * 2 ^ d := by
    rw [unit, ← pow_add]
    congr 1
    omega
  rw [show (-((expField value : ℤ) - 1075 + f)).toNat = d + 1 by omega,
    show (-((expField value : ℤ) - 1075 + f) - 1).toNat = d by omega, shl128, if_pos (by omega), bind_some, one_mul,
    Nat.mod_eq_of_lt (by omega : 2 ^ d < 2 ^ 128), Nat.mod_eq_of_lt (by omega), shr128, if_pos (by omega), hsplit,
    mul_comm product, ← mul_add, mul_left_comm, Nat.mul_div_mul_left _ _ (Nat.two_pow_pos _), pow_succ']

/-! ## The text -/

/-- the shortest text of n with f digits behind the point and at least one before it -/
structure IsExpansion (negative : Bool) (f n : ℕ) (text whole fraction : List UInt8) : Prop where
  text : text = (if negative then [45] else []) ++ (whole ++ if f = 0 then [] else 46 :: fraction)
  digits : ∀ digit ∈ whole ++ fraction, isDigit digit
  value : digitsValue (whole ++ fraction) = n
  places : fraction.length = f
  front : whole ≠ []
  shortest : ∀ k, f < k → n < 10 ^ k → (whole ++ fraction).length ≤ k

theorem digitLoop_spec (room : ℕ) : ∀ (n : ℕ) (reversed : List UInt8), 0 < room → n < 10 ^ room →
    ∃ written, digitLoop room n reversed = some (written ++ reversed) ∧ (∀ digit ∈ written, isDigit digit) ∧
      digitsValue written = n ∧ ∀ k, 0 < k → n < 10 ^ k → written.length ≤ k := by
  induction room with
  | zero => exact nofun
  | succ room ih =>
    intro n reversed _ hlt
    obtain ⟨hd, hv⟩ := (by decide : ∀ d < 10, isDigit (UInt8.ofNat (48 + d)) ∧ digitOf (UInt8.ofNat (48 + d)) = d)
      (n % 10) (Nat.mod_lt _ (by decide))
    rw [digitLoop]
    generalize UInt8.ofNat (48 + n % 10) = unit at *
    split_ifs with hlast
    · refine ⟨[unit], rfl, by simpa using hd, ?_, fun k hk _ => hk⟩
      simp [digitsValue, appendDigit]
      omega
    -- a power of ten above a number of two digits is that of one more than the rest needs
    have hpow : ∀ k, n < 10 ^ (k + 1) → 0 < k ∧ n / 10 < 10 ^ k := by
      intro k hk
      refine ⟨Nat.pos_of_ne_zero fun hzero => ?_, by omega⟩
      rw [hzero] at hk
      omega
    obtain ⟨written, heq, hdigits, hvalue, hshort⟩ := ih (n / 10) (unit :: reversed) (hpow _ hlt).1 (hpow _ hlt).2
    refine ⟨written ++ [unit], by rw [heq, append_assoc]; rfl, ?_, ?_, ?_⟩
    · simpa [or_imp, forall_and] using ⟨hdigits, hd⟩
    · rw [digitsValue, foldl_concat, ← digitsValue, appendDigit]
      omega
    · intro k hk hlt
      obtain ⟨k, rfl⟩ := Nat.exists_eq_add_of_lt hk
      rw [zero_add] at hlt ⊢
      simpa using hshort k (hpow k hlt).1 (hpow k hlt).2

theorem writeDigits_append (fraction whole : List UInt8) : writeDigits fraction.length (whole ++ fraction) =
    whole ++ if fraction.length = 0 then [] else 46 :: fraction := by
  have hbehind : ∀ (n : ℕ) (rest : List UInt8), rest.length < n → writeDigits n rest = rest := by
    intro n rest
    induction rest with
    | nil => exact fun _ => rfl
    | cons digit rest ih =>
      intro hlt
      rw [length_cons] at hlt
      rw [writeDigits, if_neg (by omega), ih (by omega)]
      rfl
  induction whole with
  | nil =>
    cases fraction with
    | nil => rfl
    | cons digit rest =>
      rw [nil_append, writeDigits, length_cons, if_pos rfl, hbehind _ _ (Nat.lt_succ_self _)]
      rfl
  | cons digit whole ih =>
    rw [cons_append, writeDigits, ih, if_neg (by rw [length_append]; omega)]
    rfl

/-- **The padded digits** fit the buffer and are the expansion of the number. -/
theorem digits_expand {n : ℕ} (hf : f ≤ 20) (hn : n < 2 ^ 64) (negative : Bool) : ∃ written padded whole fraction,
    digitLoop 21 n [] = some written ∧ padDigits f written = some padded ∧
      IsExpansion negative f n ((if negative then [45] else []) ++ writeDigits f padded) whole fraction := by
  obtain ⟨written, heq, hdigits, hvalue, hshort⟩ := digitLoop_spec 21 n [] (by decide) (hn.trans (by decide))
  have hlength := hshort 21 (by decide) (hn.trans (by decide))
  rw [append_nil] at heq
  set padded := replicate (f + 1 - written.length) 48 ++ written with hpadded
  have hlen : padded.length = f + 1 - written.length + written.length := by rw [length_append, length_replicate]
  obtain ⟨whole, fraction, hparts, hfront, hplaces⟩ : ∃ whole fraction, whole ++ fraction = padded ∧ whole ≠ [] ∧
      fraction.length = f := by
    refine ⟨_, _, take_append_drop (padded.length - f) padded, ?_, by rw [length_drop]; omega⟩
    rw [ne_eq, ← length_eq_zero_iff, length_take]
    omega
  refine ⟨written, padded, whole, fraction, heq, ?_, ?_, ?_, ?_, hplaces, hfront, ?_⟩
  · rw [padDigits, ← hpadded, if_pos (by omega)]
  · rw [← hparts, ← hplaces, writeDigits_append]
  · rw [hparts]
    intro digit hmem
    rcases mem_append.1 hmem with hmem | hmem
    · rw [eq_of_mem_replicate hmem]
      rfl
    · exact hdigits digit hmem
  · rw [hparts, digitsValue_pad, hvalue]
  · intro k hk hlt
    have := hshort k (by omega) hlt
    rw [hparts]
    omega

/-- **Fixed notation is exact.** Whatever the word and f, nothing undefined happens; a text that is written is that of
the integer n for which n/10^f is nearest to the magnitude of the value, the larger one on a tie, with a sign exactly
for a negative value. -/
theorem formatFixedPlain_nearest (value : BitVec 64) (f : ℕ) : ∃ text, formatFixedPlain value f = some text ∧
    (text ≠ [] → ∃ (x : ℤ) (n : ℕ) (whole fraction : List UInt8), finite? value = some x ∧
      Nearest |(x : ℚ) / unit| f n ∧ IsExpansion (decide (x < 0)) f n text whole fraction) := by
  rw [formatFixedPlain]
  split
  · exact ⟨[], rfl, absurd rfl⟩
  rename_i hrefused
  simp only [not_or, not_lt, not_le] at hrefused
  obtain ⟨hf, hfinite, hhigh⟩ := hrefused
  have hround := round_units (magnitude value) f
  rw [scaledDigits_round hf hhigh, bind_some]
  generalize (2 * (magnitude value * 10 ^ f) + unit) / (2 * unit) = n at *
  split
  · exact ⟨[], rfl, absurd rfl⟩
  rename_i hwide
  obtain ⟨x, hx⟩ : ∃ x, finite? value = some x := ⟨_, if_neg hfinite⟩
  have hmag := magnitude_eq_natAbs hx
  have hsign : (signBit value ∧ magnitude value ≠ 0) ↔ decide (x < 0) = true := by
    by_cases hzero : x = 0
    · simp [hmag, hzero]
    · simp [signBit_of_neg hx hzero, hmag, hzero]
  obtain ⟨written, padded, whole, fraction, hdigits, hpad, hexpand⟩ :=
    digits_expand hf (by omega : n < 2 ^ 64) (decide (x < 0))
  rw [hdigits, bind_some, hpad]
  simp only [hsign]
  refine ⟨_, rfl, fun _ => ⟨x, n, whole, fraction, hx, ?_, hexpand⟩⟩
  have hnear := nearest_round ((magnitude value : ℚ) / unit) f
  rw [hround] at hnear
  rw [abs_div, Nat.abs_cast, ← Int.cast_abs, Int.abs_eq_natAbs, ← hmag]
  exact hnear

/-- the double of 1.005 lies below it; a half is a tie; negative zero has no sign -/
example : formatFixedPlain 0x3FF0147AE147AE14#64 2 = some [49, 46, 48, 48] ∧
    formatFixedPlain 0xBFE0000000000000#64 0 = some [45, 49] ∧
    formatFixedPlain 0x8000000000000000#64 1 = some [48, 46, 48] := by decide +kernel

end Maligator.FixedText
