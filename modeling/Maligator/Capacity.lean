/-
Capacities shared by Map and Set storage: rows and buckets grow by doubling and stay below INT32_MAX.

`collectionCapacity_spec`, `collectionSlotCapacity_spec`: below the limits the search for a capacity succeeds.
-/
import Maligator.HashIndexContents

namespace Maligator

open HashIndex

def int32Max : ℕ := 2 ^ 31 - 1

def uint32Max : ℕ := 2 ^ 32 - 1

/-- double the capacity until it will do; the fuel is more than the doublings below INT32_MAX -/
def growCapacity (enough : ℕ → Bool) : ℕ → ℕ → Option ℕ
  | 0, _ => none
  | fuel + 1, capacity =>
    if enough capacity then some capacity
    else if capacity > int32Max / 2 then none
    else growCapacity enough fuel (capacity * 2)

/-- rows for `required` entries, starting from `minimum` -/
def collectionCapacity (required minimum : ℕ) : Option ℕ :=
  if required > int32Max - 1 then none else growCapacity (fun capacity => decide (required ≤ capacity)) 32 minimum

/-- buckets for `members` entries -/
def collectionSlotCapacity (members : ℕ) : Option ℕ := growCapacity (hashIndexFits members) 32 hashGroupWidth

/-- memcpy of the first `count` rows into a fresh array -/
def copyRows {α : Type} (count : ℕ) (source fresh : ℕ → α) : ℕ → α := fun i => if i < count then source i else fresh i

/-- seven eighths of the largest index of int32 capacity -/
def memberLimit : ℕ := 7 * 2 ^ 27

variable {members : ℕ} (enough : ℕ → Bool)

theorem growCapacity_spec (hbig : ∀ c, 2 ^ 30 ≤ c → enough c = true) (fuel c : ℕ) (hpos : 0 < c) (hlt : c < 2 ^ 31)
    (hge : 2 ^ 31 ≤ c * 2 ^ fuel) :
    ∃ j, growCapacity enough fuel c = some (c * 2 ^ j) ∧ enough (c * 2 ^ j) = true ∧ c * 2 ^ j < 2 ^ 31 := by
  induction fuel generalizing c with
  | zero => omega
  | succ fuel ih =>
    rw [growCapacity]
    split_ifs with h1 h2
    · exact ⟨0, by simp, by simpa using h1, by simpa using hlt⟩
    · exact absurd (hbig c (by rw [int32Max] at h2; omega)) h1
    have hc : c < 2 ^ 30 := by
      by_contra hge'
      exact h1 (hbig c (by omega))
    obtain ⟨j, hj, he, hl⟩ := ih (c * 2) (by omega) (by omega) (by rw [mul_assoc, ← pow_succ']; exact hge)
    refine ⟨j + 1, ?_, ?_, ?_⟩
    all_goals rw [pow_succ', ← mul_assoc]; assumption

theorem growCapacity_some {enough : ℕ → Bool} {fuel c d : ℕ} (hc : c < 2 ^ 31) (h : growCapacity enough fuel c = some d) :
    enough d = true ∧ d < 2 ^ 31 ∧ ∃ j, d = c * 2 ^ j := by
  induction fuel generalizing c d with
  | zero => cases h
  | succ fuel ih =>
    rw [growCapacity] at h
    split_ifs at h with h1 h2
    · cases h
      exact ⟨h1, hc, 0, by simp⟩
    rw [int32Max] at h2
    obtain ⟨he, hlt, j, rfl⟩ := ih (by omega) h
    exact ⟨he, hlt, j + 1, by rw [pow_succ', ← mul_assoc]⟩

theorem doublings_le {k : ℕ} (h : 16 * 2 ^ k < 2 ^ 31) : k ≤ 26 := by
  by_contra hgt
  have hpow : 2 ^ 27 ≤ 2 ^ k := Nat.pow_le_pow_right (by decide) (by omega)
  omega

theorem growCapacity_eq_none (hsmall : ∀ c ≤ 2 ^ 30, enough c = false) (fuel j : ℕ) (hj : j ≤ 30) :
    growCapacity enough fuel (2 ^ j) = none := by
  induction fuel generalizing j with
  | zero => rfl
  | succ fuel ih =>
    have hle : 2 ^ j ≤ 2 ^ 30 := Nat.pow_le_pow_right (by decide) hj
    rw [growCapacity, hsmall _ hle, if_neg (by simp)]
    split_ifs with hbig
    · rfl
    have hne : j ≠ 30 := by
      rintro rfl
      exact hbig (by decide)
    exact ih (j + 1) (by omega)

theorem collectionCapacity_spec (required minimum : ℕ) (hr : required ≤ 2 ^ 30) (h0 : 0 < minimum) (hm : minimum < 2 ^ 31) :
    ∃ c, collectionCapacity required minimum = some c ∧ required ≤ c ∧ 0 < c ∧ c < 2 ^ 31 := by
  rw [collectionCapacity, if_neg (by rw [int32Max]; omega)]
  obtain ⟨j, hj, he, hl⟩ := growCapacity_spec (fun c => decide (required ≤ c))
    (fun c hc => by simpa using hr.trans hc) 32 minimum h0 hm (by nlinarith)
  exact ⟨_, hj, by simpa using he, by positivity, hl⟩

theorem collectionSlotCapacity_le (hm : members ≤ memberLimit) :
    ∃ k ≤ 26, collectionSlotCapacity members = some (16 * 2 ^ k) ∧ hashIndexFits members (16 * 2 ^ k) = true := by
  obtain ⟨j, hj, he, hlt⟩ := growCapacity_spec (hashIndexFits members) (fun c hc => by
    rw [hashIndexFits, decide_eq_true_eq]
    rw [memberLimit] at hm
    omega) 32 hashGroupWidth (by decide) (by decide) (by decide)
  exact ⟨j, doublings_le hlt, hj, he⟩

theorem collectionSlotCapacity_spec (hm : members ≤ memberLimit) :
    ∃ k, collectionSlotCapacity members = some (16 * 2 ^ k) ∧ hashIndexFits members (16 * 2 ^ k) = true := by
  obtain ⟨k, _, hk⟩ := collectionSlotCapacity_le hm
  exact ⟨k, hk⟩

theorem collectionSlotCapacity_eq_none (hm : memberLimit < members) : collectionSlotCapacity members = none := by
  refine growCapacity_eq_none _ (fun c hc => ?_) 32 4 (by decide)
  rw [memberLimit] at hm
  rw [hashIndexFits, decide_eq_false_iff_not]
  omega

end Maligator
