/-
Triangular probing over a power of two.

A probe starts at position `start` and at step j moves j places on, so after j steps it stands at `start + j(j+1)/2`
modulo the number of places. For 2^k places the first 2^k positions are a permutation of all places:

`path_injOn`: no place is met twice within the first 2^k steps.
-/
import Mathlib.Tactic

namespace Maligator.TriangularProbe

def tri : ℕ → ℕ
  | 0 => 0
  | j + 1 => tri j + (j + 1)

theorem two_mul_tri (j : ℕ) : 2 * tri j = j * (j + 1) := by
  induction j with
  | zero => rfl
  | succ j ih => rw [tri, mul_add, ih]; ring

def path (n start j : ℕ) : ℕ := (start + tri j) % n

theorem path_lt {n : ℕ} (hn : 0 < n) (start j : ℕ) : path n start j < n := Nat.mod_lt _ hn

theorem path_succ (n start j : ℕ) : path n start (j + 1) = (path n start j + (j + 1)) % n := by
  simp only [path, tri, Nat.mod_add_mod, add_assoc]

theorem path_zero {n start : ℕ} (h : start < n) : path n start 0 = start := by
  simpa [path, tri] using Nat.mod_eq_of_lt h

theorem two_pow_dvd_of_tri_modEq {k i j : ℕ} (hij : i ≤ j) (h : tri i ≡ tri j [MOD 2 ^ k]) :
    2 ^ (k + 1) ∣ (j - i) * (j + i + 1) := by
  have hmul : 2 * tri i ≡ 2 * tri j [MOD 2 * 2 ^ k] := Nat.ModEq.mul_left' 2 h
  rw [two_mul_tri, two_mul_tri, ← pow_succ'] at hmul
  have hle : i * (i + 1) ≤ j * (j + 1) := Nat.mul_le_mul hij (by omega)
  have hdvd := (Nat.modEq_iff_dvd' hle).1 hmul
  have hfac : j * (j + 1) - i * (i + 1) = (j - i) * (j + i + 1) := by
    obtain ⟨d, rfl⟩ := Nat.exists_eq_add_of_le hij
    rw [Nat.add_sub_cancel_left]
    refine Nat.sub_eq_of_eq_add ?_
    ring
  rwa [hfac] at hdvd

theorem two_pow_dvd_left_or_right {m a b : ℕ} (h : 2 ^ m ∣ a * b) (hodd : Odd a ∨ Odd b) : 2 ^ m ∣ a ∨ 2 ^ m ∣ b := by
  rcases hodd with ha | hb
  · exact .inr (Nat.Coprime.dvd_of_dvd_mul_left (Nat.Coprime.pow_left m ha.coprime_two_left) h)
  · exact .inl (Nat.Coprime.dvd_of_dvd_mul_right (Nat.Coprime.pow_left m hb.coprime_two_left) h)

theorem tri_ne_of_lt {k i j : ℕ} (hij : i < j) (hj : j < 2 ^ k) : ¬ tri i ≡ tri j [MOD 2 ^ k] := by
  intro h
  have hdvd := two_pow_dvd_of_tri_modEq hij.le h
  -- j - i and j + i + 1 differ by 2i + 1, so one of them is odd
  have hodd : Odd (j - i) ∨ Odd (j + i + 1) := by
    rcases Nat.even_or_odd (j - i) with he | ho
    · right
      have : j + i + 1 = (j - i) + 2 * i + 1 := by omega
      rw [this, Nat.odd_add_one, Nat.not_odd_iff_even]
      exact he.add (even_two_mul i)
    · exact .inl ho
  rcases two_pow_dvd_left_or_right hdvd hodd with hd | hd
  · have := Nat.le_of_dvd (by omega) hd
    omega
  · have := Nat.le_of_dvd (by omega) hd
    omega

theorem path_injOn (k start : ℕ) : Set.InjOn (path (2 ^ k) start) (Set.Iio (2 ^ k)) := by
  intro i hi j hj h
  have hmod : tri i ≡ tri j [MOD 2 ^ k] := Nat.ModEq.add_left_cancel' start h
  rcases Nat.lt_trichotomy i j with hlt | heq | hgt
  · exact absurd hmod (tri_ne_of_lt hlt hj)
  · exact heq
  · exact absurd hmod.symm (tri_ne_of_lt hgt hi)

/-- **Every place is met** within the first 2^k steps. -/
theorem exists_step (k start : ℕ) {g : ℕ} (hg : g < 2 ^ k) : ∃ j < 2 ^ k, path (2 ^ k) start j = g := by
  have hmaps : Set.MapsTo (path (2 ^ k) start) (Finset.range (2 ^ k)) (Finset.range (2 ^ k)) := by
    intro j _
    simpa using path_lt (Nat.two_pow_pos k) start j
  have hinj : Set.InjOn (path (2 ^ k) start) (Finset.range (2 ^ k)) := by
    simpa [Set.InjOn] using path_injOn k start
  have hsurj := Finset.surjOn_of_injOn_of_card_le (path (2 ^ k) start) hmaps hinj le_rfl
  obtain ⟨j, hj, rfl⟩ := hsurj (by simpa using hg)
  exact ⟨j, by simpa using hj, rfl⟩

end Maligator.TriangularProbe
