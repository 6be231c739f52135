/-
IEEE 754 binary64 words and the integers they stand for.

A finite word is an integer multiple of the smallest subnormal 2^-1074, so its exact value is an integer in that unit
(`finite?`). `ofInt` encodes an integer of at most 53 bits exactly. The two are inverse to each other except at zero,
where two words have the value 0:

`finite?_ofInt`: `ofInt n` has the value n.
`eq_ofInt_of_finite?`: a word with the value n is `ofInt n`, or it is negative zero.
-/
import Mathlib.Tactic

namespace Maligator.Binary64

def unit : ℕ := 2 ^ 1074

def signBit (w : BitVec 64) : Bool := decide (2 ^ 63 ≤ w.toNat)
def expField (w : BitVec 64) : ℕ := w.toNat / 2 ^ 52 % 2 ^ 11
def fracField (w : BitVec 64) : ℕ := w.toNat % 2 ^ 52

def magnitude (w : BitVec 64) : ℕ :=
  if expField w = 0 then fracField w else (2 ^ 52 + fracField w) * 2 ^ (expField w - 1)

/-- the exact value in units; infinities and NaNs have none -/
def finite? (w : BitVec 64) : Option ℤ :=
  if expField w = 2047 then none else some (if signBit w then -(magnitude w : ℤ) else magnitude w)

def ofNatMag (m : ℕ) : ℕ :=
  if m = 0 then 0 else (1023 + Nat.log 2 m) * 2 ^ 52 + (m * 2 ^ (52 - Nat.log 2 m) - 2 ^ 52)

/-- conversion of an integer of at most 53 bits, which is exact -/
def ofInt (n : ℤ) : BitVec 64 := BitVec.ofNat 64 ((if n < 0 then 2 ^ 63 else 0) + ofNatMag n.natAbs)

/-! ## Encoding -/

variable {m e f : ℕ} {n x : ℤ}

theorem log_le (hm : m < 2 ^ 53) : Nat.log 2 m ≤ 52 := by
  have := Nat.log_lt_of_lt_pow' (by decide) hm
  omega

theorem significand_bounds (h0 : m ≠ 0) (hm : m < 2 ^ 53) :
    2 ^ 52 ≤ m * 2 ^ (52 - Nat.log 2 m) ∧ m * 2 ^ (52 - Nat.log 2 m) < 2 ^ 53 := by
  have hl := log_le hm
  have hlow := Nat.pow_log_le_self 2 h0
  have hhigh := Nat.lt_pow_succ_log_self (by decide : 1 < 2) m
  constructor
  · calc 2 ^ 52 = 2 ^ Nat.log 2 m * 2 ^ (52 - Nat.log 2 m) := by rw [← pow_add]; congr 1; omega
      _ ≤ m * 2 ^ (52 - Nat.log 2 m) := Nat.mul_le_mul_right _ hlow
  · calc m * 2 ^ (52 - Nat.log 2 m) < 2 ^ (Nat.log 2 m).succ * 2 ^ (52 - Nat.log 2 m) :=
          Nat.mul_lt_mul_of_pos_right hhigh (Nat.two_pow_pos _)
      _ = 2 ^ 53 := by rw [← pow_add]; congr 1; omega

theorem ofNatMag_lt (hm : m < 2 ^ 53) : ofNatMag m < 2 ^ 63 := by
  rw [ofNatMag]
  split_ifs with h0
  · positivity
  have hl := log_le hm
  have hs := significand_bounds h0 hm
  omega

theorem toNat_ofInt (hn : n.natAbs < 2 ^ 53) : (ofInt n).toNat = (if n < 0 then 2 ^ 63 else 0) + ofNatMag n.natAbs := by
  have := ofNatMag_lt hn
  rw [ofInt, BitVec.toNat_ofNat]
  split_ifs <;> omega

theorem finite?_ofInt (hn : n.natAbs < 2 ^ 53) : finite? (ofInt n) = some (n * unit) := by
  have hw := toNat_ofInt hn
  by_cases h0 : n.natAbs = 0
  · have : n = 0 := Int.natAbs_eq_zero.1 h0
    subst this
    rw [zero_mul]
    decide
  have hl := log_le hn
  have hs := significand_bounds h0 hn
  have hmag : ofNatMag n.natAbs = (1023 + Nat.log 2 n.natAbs) * 2 ^ 52 +
      (n.natAbs * 2 ^ (52 - Nat.log 2 n.natAbs) - 2 ^ 52) := if_neg h0
  have hexp : expField (ofInt n) = 1023 + Nat.log 2 n.natAbs := by
    rw [expField, hw]
    split_ifs <;> omega
  have hfrac : fracField (ofInt n) = n.natAbs * 2 ^ (52 - Nat.log 2 n.natAbs) - 2 ^ 52 := by
    rw [fracField, hw]
    split_ifs <;> omega
  have hsign : signBit (ofInt n) = decide (n < 0) := by
    rw [signBit, hw]
    split_ifs with hneg
    · simp [hneg]
    · simp only [hneg, decide_false, decide_eq_false_iff_not]
      omega
  have hunit : magnitude (ofInt n) = n.natAbs * unit := by
    rw [magnitude, if_neg (by omega), hfrac, Nat.add_sub_cancel' hs.1, mul_assoc, ← pow_add]
    congr 2
    omega
  rw [finite?, if_neg (by omega), hsign, hunit]
  by_cases hneg : n < 0
  · simp only [hneg, decide_true, if_true, Nat.cast_mul]
    rw [Int.ofNat_natAbs_of_nonpos hneg.le, neg_mul, neg_neg]
  · simp only [hneg, decide_false, Bool.false_eq_true, if_false, Nat.cast_mul]
    rw [Int.natAbs_of_nonneg (not_lt.1 hneg)]

/-! ## Decoding -/

theorem fields_of_magnitude (h0 : m ≠ 0) (hm : m < 2 ^ 53) (hf : f < 2 ^ 52)
    (h : (if e = 0 then f else (2 ^ 52 + f) * 2 ^ (e - 1)) = m * unit) :
    e = 1023 + Nat.log 2 m ∧ 2 ^ 52 + f = m * 2 ^ (52 - Nat.log 2 m) := by
  have hl := log_le hm
  have hlow := Nat.pow_log_le_self 2 h0
  have hhigh := Nat.lt_pow_succ_log_self (by decide : 1 < 2) m
  split_ifs at h with he
  · -- a subnormal is below one
    have h1 : 2 ^ 52 ≤ unit := Nat.pow_le_pow_right (by decide) (by decide)
    have h2 : 1 * unit ≤ m * unit := Nat.mul_le_mul_right _ (Nat.pos_of_ne_zero h0)
    omega
  -- both sides lie between consecutive powers of two, so the exponents agree
  have hexp : e = 1023 + Nat.log 2 m := by
    have hleft : 2 ^ (52 + (e - 1)) < 2 ^ ((Nat.log 2 m).succ + 1074) := by
      calc 2 ^ (52 + (e - 1)) = 2 ^ 52 * 2 ^ (e - 1) := pow_add _ _ _
        _ ≤ (2 ^ 52 + f) * 2 ^ (e - 1) := Nat.mul_le_mul_right _ (by omega)
        _ = m * unit := h
        _ < 2 ^ (Nat.log 2 m).succ * unit := Nat.mul_lt_mul_of_pos_right hhigh (Nat.two_pow_pos _)
        _ = 2 ^ ((Nat.log 2 m).succ + 1074) := (pow_add _ _ _).symm
    have hright : 2 ^ (Nat.log 2 m + 1074) < 2 ^ (53 + (e - 1)) := by
      calc 2 ^ (Nat.log 2 m + 1074) = 2 ^ Nat.log 2 m * unit := pow_add _ _ _
        _ ≤ m * unit := Nat.mul_le_mul_right _ hlow
        _ = (2 ^ 52 + f) * 2 ^ (e - 1) := h.symm
        _ < 2 ^ 53 * 2 ^ (e - 1) := Nat.mul_lt_mul_of_pos_right (by omega) (Nat.two_pow_pos _)
        _ = 2 ^ (53 + (e - 1)) := (pow_add _ _ _).symm
    have h1 := (Nat.pow_lt_pow_iff_right (by decide)).1 hleft
    have h2 := (Nat.pow_lt_pow_iff_right (by decide)).1 hright
    omega
  refine ⟨hexp, ?_⟩
  have hsplit : m * unit = m * 2 ^ (52 - Nat.log 2 m) * 2 ^ (e - 1) := by
    rw [mul_assoc, ← pow_add, unit]
    congr 2
    omega
  rw [hsplit] at h
  exact Nat.eq_of_mul_eq_mul_right (Nat.two_pow_pos _) h

theorem toNat_eq_fields (w : BitVec 64) :
    w.toNat = (if signBit w then 2 ^ 63 else 0) + expField w * 2 ^ 52 + fracField w := by
  simp only [signBit, expField, fracField, decide_eq_true_eq]
  split_ifs <;> omega

variable {w : BitVec 64}

theorem magnitude_eq_natAbs (h : finite? w = some x) : magnitude w = x.natAbs := by
  rw [finite?] at h
  split_ifs at h <;> cases h <;> simp

theorem signBit_of_neg (h : finite? w = some x) (hx : x ≠ 0) : signBit w = decide (x < 0) := by
  rw [finite?] at h
  split_ifs at h with h1 h2 <;> cases h
  · simp only [h2]
    symm
    rw [decide_eq_true_eq]
    omega
  · simp only [h2]
    symm
    rw [decide_eq_false_iff_not]
    omega

theorem eq_ofInt_of_finite? (hn : n.natAbs < 2 ^ 53) (h : finite? w = some (n * unit))
    (hz : w.toNat ≠ 2 ^ 63) : w = ofInt n := by
  have hmag := magnitude_eq_natAbs h
  rw [Int.natAbs_mul] at hmag
  have hfields := toNat_eq_fields w
  have hf : fracField w < 2 ^ 52 := Nat.mod_lt _ (by positivity)
  apply BitVec.eq_of_toNat_eq
  rw [toNat_ofInt hn]
  by_cases h0 : n.natAbs = 0
  · -- value 0: both fields vanish and the sign bit would make it negative zero
    rw [h0, Nat.zero_mul, magnitude] at hmag
    have hn0 : n = 0 := Int.natAbs_eq_zero.1 h0
    have hboth : expField w = 0 ∧ fracField w = 0 := by
      split_ifs at hmag with he
      · exact ⟨he, hmag⟩
      · have := Nat.mul_pos (show 0 < 2 ^ 52 + fracField w by positivity) (Nat.two_pow_pos (expField w - 1))
        omega
    subst hn0
    simp only [lt_irrefl, if_false, Int.natAbs_zero, ofNatMag, if_true]
    split_ifs at hfields <;> omega
  have hunit : (n * (unit : ℤ)) ≠ 0 := by
    refine mul_ne_zero (fun hz => h0 (by simp [hz])) ?_
    have : unit ≠ 0 := by unfold unit; positivity
    exact_mod_cast this
  obtain ⟨hexp, hsig⟩ := fields_of_magnitude h0 hn hf hmag
  have hsign := signBit_of_neg h hunit
  have hneg : (n * (unit : ℤ) < 0) ↔ n < 0 := by
    have hpos : (0 : ℤ) < unit := by unfold unit; positivity
    constructor
    · intro hlt
      by_contra hge
      have := mul_nonneg (not_lt.1 hge) hpos.le
      omega
    · intro hlt
      exact mul_neg_of_neg_of_pos hlt hpos
  rw [hfields, hsign, ofNatMag, if_neg h0]
  simp only [hneg, decide_eq_true_eq]
  omega

/-! ## Words that stand for a 32-bit integer -/

/-- `number >= INT32_MIN && number <= INT32_MAX && (f64) (i32) number == number` -/
def isInt32 (w : BitVec 64) : Bool :=
  match finite? w with
  | none => false
  | some x => decide (-(2 ^ 31 : ℤ) * unit ≤ x ∧ x ≤ (2 ^ 31 - 1 : ℤ) * unit ∧ x.tdiv unit * unit = x)

/-- `(i32) number`: the value truncated toward zero -/
def toInt32 (w : BitVec 64) : ℤ := ((finite? w).getD 0).tdiv unit

theorem unit_pos : (0 : ℤ) < unit := by unfold unit; positivity

theorem isInt32_spec (h : isInt32 w = true) :
    finite? w = some (toInt32 w * unit) ∧ -(2 ^ 31) ≤ toInt32 w ∧ toInt32 w < 2 ^ 31 := by
  unfold isInt32 at h
  cases hx : finite? w with
  | none => simp [hx] at h
  | some x =>
    rw [hx] at h
    obtain ⟨hlo, hhi, heq⟩ := of_decide_eq_true h
    have ht : toInt32 w = x.tdiv unit := by rw [toInt32, hx, Option.getD_some]
    rw [ht, heq]
    refine ⟨rfl, ?_, ?_⟩
    · rw [← heq] at hlo
      exact le_of_mul_le_mul_right hlo unit_pos
    · rw [← heq] at hhi
      have := le_of_mul_le_mul_right hhi unit_pos
      omega

theorem ofInt_toInt32 (h : isInt32 w = true) (hz : w.toNat ≠ 2 ^ 63) : ofInt (toInt32 w) = w := by
  obtain ⟨hfin, hlo, hhi⟩ := isInt32_spec h
  exact (eq_ofInt_of_finite? (by omega) hfin hz).symm

theorem toInt32_ofInt (hlo : -(2 ^ 31) ≤ n) (hhi : n < 2 ^ 31) : toInt32 (ofInt n) = n := by
  rw [toInt32, finite?_ofInt (by omega), Option.getD_some, Int.mul_tdiv_cancel _ unit_pos.ne']

end Maligator.Binary64
