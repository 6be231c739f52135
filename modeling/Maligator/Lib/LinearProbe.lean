/-
Open addressing with linear probing.

A table is n places; `vacant` tells an empty one. A search starts at the home of what it looks for and goes on place by
place until a hit or a vacant place. `Inv` makes it exact: no place between an entry's home and the entry is vacant, and
some place is.

`vacancy_spec`: the walk for an insertion stops at a vacant place that the home reaches, so putting the entry there keeps
the invariant (`Inv.put`). `Inv.search_some`, `Inv.search_ne_none`: a search finds hits only, and misses none.
-/
import Maligator.Lib.GroupTable

namespace Maligator.LinearProbe

open Function

variable {α : Type}

def vacancy (vacant : α → Bool) (slots : ℕ → α) (n : ℕ) : ℕ → ℕ → ℕ
  | 0, slot => slot
  | fuel + 1, slot => if vacant (slots slot) then slot else vacancy vacant slots n fuel ((slot + 1) % n)

def search (vacant hit : α → Bool) (slots : ℕ → α) (n : ℕ) : ℕ → ℕ → Option α
  | 0, _ => none
  | fuel + 1, slot =>
    if vacant (slots slot) then none
    else if hit (slots slot) then some (slots slot)
    else search vacant hit slots n fuel ((slot + 1) % n)

def Reaches (vacant : α → Bool) (slots : ℕ → α) (n h i : ℕ) : Prop :=
  ∃ d, i = (h + d) % n ∧ ∀ j < d, vacant (slots ((h + j) % n)) = false

structure Inv (vacant : α → Bool) (home : α → ℕ) (slots : ℕ → α) (n : ℕ) : Prop where
  room : ∃ i < n, vacant (slots i) = true
  reached : ∀ i < n, vacant (slots i) = false → Reaches vacant slots n (home (slots i)) i

variable {vacant : α → Bool} {home : α → ℕ} {slots : ℕ → α} {n : ℕ} {hit : α → Bool} {h D : ℕ}

variable {i p : ℕ} {a : α}

theorem exists_distance (hi : i < n) (h : ℕ) : ∃ d, i = (h + d) % n := by
  refine ⟨i + (n - h % n), ?_⟩
  have hlt : h % n < n := Nat.mod_lt h (by omega)
  have hsum : h + (i + (n - h % n)) = i + n * (h / n + 1) := by
    have := Nat.mod_add_div h n
    rw [Nat.mul_add]
    omega
  rw [hsum, Nat.add_mul_mod_self_left, Nat.mod_eq_of_lt hi]

theorem exists_nearest (hroom : ∃ i < n, vacant (slots i) = true) (h : ℕ) : ∃ d < n, vacant (slots ((h + d) % n)) = true ∧
    ∀ j < d, vacant (slots ((h + j) % n)) = false := by
  obtain ⟨i, hi, hv⟩ := hroom
  obtain ⟨e, he⟩ := exists_distance hi h
  have hex : ∃ d, vacant (slots ((h + d) % n)) = true := ⟨e, he ▸ hv⟩
  have hless : ∀ j < Nat.find hex, vacant (slots ((h + j) % n)) = false :=
    fun j hj => Bool.eq_false_iff.2 (Nat.find_min hex hj)
  refine ⟨Nat.find hex, ?_, Nat.find_spec hex, hless⟩
  by_contra hge
  -- the vacant place is met again within n steps
  have hmod : (h + e % n) % n = i := by rw [Nat.add_mod_mod, ← he]
  have hlt : e % n < n := Nat.mod_lt e (by omega)
  have := hless (e % n) (by omega)
  rw [hmod, hv] at this
  cases this

theorem next_place (h d : ℕ) : ((h + d) % n + 1) % n = (h + (d + 1)) % n := by
  rw [Nat.mod_add_mod, Nat.add_assoc]

theorem vacancy_eq (hD : vacant (slots ((h + D) % n)) = true) (hless : ∀ j < D, vacant (slots ((h + j) % n)) = false)
    (fuel d : ℕ) (hle : d ≤ D) (hfuel : D ≤ d + fuel) : vacancy vacant slots n fuel ((h + d) % n) = (h + D) % n := by
  induction fuel generalizing d with
  | zero =>
    obtain rfl : d = D := by omega
    rfl
  | succ fuel ih =>
    rw [vacancy]
    by_cases heq : d = D
    · rw [heq, if_pos hD]
    · rw [if_neg (by rw [hless d (by omega)]; exact Bool.false_ne_true), next_place]
      exact ih (d + 1) (by omega) (by omega)

/-- **The walk for an insertion** stops at a vacant place that the home reaches. -/
theorem vacancy_spec (hroom : ∃ i < n, vacant (slots i) = true) (h : ℕ) :
    vacancy vacant slots n n (h % n) < n ∧ vacant (slots (vacancy vacant slots n n (h % n))) = true ∧
      Reaches vacant slots n h (vacancy vacant slots n n (h % n)) := by
  obtain ⟨D, hDn, hD, hless⟩ := exists_nearest hroom h
  have heq : vacancy vacant slots n n (h % n) = (h + D) % n := vacancy_eq hD hless n 0 (Nat.zero_le D) (by omega)
  rw [heq]
  exact ⟨Nat.mod_lt _ (by omega), hD, D, rfl, hless⟩

theorem Reaches.update (hr : Reaches vacant slots n h i) (ha : vacant a = false) :
    Reaches vacant (update slots p a) n h i := by
  obtain ⟨d, hd, hless⟩ := hr
  refine ⟨d, hd, fun j hj => ?_⟩
  rw [update_apply]
  split_ifs
  · exact ha
  · exact hless j hj

theorem Inv.put (hI : Inv vacant home slots n) (ha : vacant a = false) (hr : Reaches vacant slots n (home a) p)
    (hroom : ∃ i < n, vacant (update slots p a i) = true) : Inv vacant home (update slots p a) n := by
  refine ⟨hroom, fun i hi hocc => ?_⟩
  by_cases heq : i = p
  · rw [heq, update_self]
    exact hr.update ha
  · rw [update_of_ne heq] at hocc ⊢
    exact (hI.reached i hi hocc).update ha

theorem search_some (hn : 0 < n) : ∀ (fuel slot : ℕ), slot < n → ∀ {a : α},
    search vacant hit slots n fuel slot = some a → ∃ i < n, slots i = a ∧ vacant a = false ∧ hit a = true := by
  intro fuel
  induction fuel with
  | zero => intro slot _ a h; cases h
  | succ fuel ih =>
    intro slot hslot a h
    rw [search] at h
    split_ifs at h with hv hh
    · cases h
      exact ⟨slot, hslot, rfl, Bool.eq_false_iff.2 hv, hh⟩
    · exact ih _ (Nat.mod_lt _ hn) h

theorem Inv.search_some (hI : Inv vacant home slots n)
    (hs : search vacant hit slots n n (h % n) = some a) : ∃ i < n, slots i = a ∧ vacant a = false ∧ hit a = true := by
  obtain ⟨i, hi, -⟩ := hI.room
  exact LinearProbe.search_some (by omega) n _ (Nat.mod_lt _ (by omega)) hs

theorem search_ne_none (hhit : hit (slots ((h + D) % n)) = true) (hocc : ∀ j ≤ D, vacant (slots ((h + j) % n)) = false)
    (fuel d : ℕ) (hle : d ≤ D) (hfuel : D < d + fuel) : search vacant hit slots n fuel ((h + d) % n) ≠ none := by
  induction fuel generalizing d with
  | zero => omega
  | succ fuel ih =>
    rw [search, if_neg (by rw [hocc d hle]; exact Bool.false_ne_true)]
    split_ifs with hh
    · exact Option.some_ne_none _
    rw [next_place]
    have hne : d ≠ D := by
      rintro rfl
      exact hh hhit
    exact ih (d + 1) (by omega) (by omega)

/-- **A search misses no hit** at its home. -/
theorem Inv.search_ne_none (hI : Inv vacant home slots n) (hit : α → Bool) (hi : i < n)
    (hocc : vacant (slots i) = false) (hhit : hit (slots i) = true) :
    search vacant hit slots n n (home (slots i) % n) ≠ none := by
  obtain ⟨d, hd, hless⟩ := hI.reached i hi hocc
  -- the way to the entry stops before the nearest vacant place
  obtain ⟨D, hDn, hD, -⟩ := exists_nearest hI.room (home (slots i))
  have hlt : d < D := by
    by_contra hge
    rcases Nat.lt_or_eq_of_le (not_lt.1 hge) with hlt | rfl
    · have := hless D hlt
      rw [hD] at this
      cases this
    · rw [← hd, hocc] at hD
      cases hD
  refine LinearProbe.search_ne_none (D := d) (by rw [← hd]; exact hhit) (fun j hj => ?_) n 0 (Nat.zero_le d) (by omega)
  rcases Nat.lt_or_eq_of_le hj with hj | rfl
  · exact hless j hj
  · rw [← hd]
    exact hocc

end Maligator.LinearProbe
