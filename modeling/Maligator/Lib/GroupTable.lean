/-
Open addressing over aligned groups of buckets.

A table has `groups` groups of `width` buckets each. A bucket is live (its control holds the tag of the hash of the entry
in it), empty, or deleted. The path of a hash meets every group once; a search walks the path, compares the entries
whose tag matches, and stops at the first group that holds an empty bucket. `Inv` is what makes that search exact: a live
bucket is reached before any group with an empty bucket. It is kept by putting an entry into a bucket its path reaches
(`Inv.put`) and by taking one out (`Inv.erase`), because a group that is full never regains an empty bucket: the bucket
taken out of a full group becomes deleted, not empty.

`exists_step_not_full`: a table with fewer occupied buckets than buckets stops every search.
-/
import Mathlib.Tactic

namespace Maligator.GroupTable

open Function Finset

variable {H C E : Type*}

/-! ## Counting the positions below a bound -/

def count (p : C → Bool) (f : ℕ → C) (n : ℕ) : ℕ := ((Finset.range n).filter (fun i => p (f i))).card

variable {n b g j : ℕ} {f ctrl' : ℕ → C} {c : C}

theorem count_update (p : C → Bool) (f : ℕ → C) (hb : b < n) (c : C) :
    count p (update f b c) n + (p (f b)).toNat = count p f n + (p c).toNat := by
  have hmem : b ∈ Finset.range n := mem_range.2 hb
  have hsum : ∀ g : ℕ → C, count p g n = (p (g b)).toNat + ∑ i ∈ (Finset.range n).erase b, (p (g i)).toNat := by
    intro g
    rw [count, card_filter, ← add_sum_erase _ _ hmem]
    simp only [Bool.toNat, Bool.cond_eq_ite]
  have hrest : ∑ i ∈ (Finset.range n).erase b, (p (update f b c i)).toNat
      = ∑ i ∈ (Finset.range n).erase b, (p (f i)).toNat := by
    refine sum_congr rfl fun i hi => ?_
    rw [update_of_ne (ne_of_mem_erase hi)]
  rw [hsum, hsum f, update_self]
  omega

theorem count_add_count (p q : C → Bool) (f : ℕ → C) (n : ℕ) (hpq : ∀ i < n, ¬ (p (f i) ∧ q (f i))) :
    count p f n + count q f n = count (fun c => p c || q c) f n := by
  rw [count, count, ← card_union_of_disjoint]
  · congr 1
    ext i
    simp only [mem_union, mem_filter, Bool.or_eq_true]
    tauto
  · rw [disjoint_left]
    intro i hp hq
    simp only [mem_filter, mem_range] at hp hq
    exact hpq i hp.1 ⟨hp.2, hq.2⟩

theorem exists_not_of_count_lt {p : C → Bool} (h : count p f n < n) : ∃ i < n, p (f i) = false := by
  by_contra hall
  push Not at hall
  have : count p f n = n := by
    rw [count, filter_true_of_mem, card_range]
    intro i hi
    simpa using hall i (mem_range.1 hi)
  omega

/-! ## Layouts -/

/-- the shape of a table: its groups, the controls of its buckets and the path of every hash -/
structure Layout (H C : Type*) where
  width : ℕ
  groups : ℕ
  path : H → ℕ → ℕ
  tag : H → C
  empty : C
  deleted : C
  live : C → Bool
  width_pos : 0 < width
  exists_step : ∀ h g, g < groups → ∃ j < groups, path h j = g
  live_tag : ∀ h, live (tag h) = true
  live_empty : live empty = false
  live_deleted : live deleted = false
  deleted_ne_empty : deleted ≠ empty

namespace Layout

section

variable (L : Layout H C)

def buckets : ℕ := L.width * L.groups

def groupOf (b : ℕ) : ℕ := b / L.width

theorem groupOf_lt (hb : b < L.buckets) : L.groupOf b < L.groups :=
  Nat.div_lt_of_lt_mul hb

theorem tag_ne_empty (h : H) : L.tag h ≠ L.empty := by
  intro he
  have := L.live_tag h
  rw [he, L.live_empty] at this
  cases this

def Full (ctrl : ℕ → C) (g : ℕ) : Prop := ∀ b, L.groupOf b = g → ctrl b ≠ L.empty

/-- the path of h gets to bucket b before it meets an empty bucket -/
def Reaches (ctrl : ℕ → C) (h : H) (b : ℕ) : Prop :=
  ∃ j < L.groups, L.path h j = L.groupOf b ∧ ∀ i < j, L.Full ctrl (L.path h i)

end

end Layout

def eraseCtrl (L : Layout H C) (full : Bool) : C := if full then L.deleted else L.empty

/-- **Table invariant.** Controls are well formed, live ones carry their entry's tag, live buckets are reached. -/
structure Inv (L : Layout H C) (hash : E → H) (ctrl : ℕ → C) (ent : ℕ → E) : Prop where
  valid : ∀ b < L.buckets, L.live (ctrl b) ∨ ctrl b = L.empty ∨ ctrl b = L.deleted
  tagged : ∀ b < L.buckets, L.live (ctrl b) → ctrl b = L.tag (hash (ent b))
  reach : ∀ b < L.buckets, L.live (ctrl b) → L.Reaches ctrl (hash (ent b)) b

section Steps

variable {L : Layout H C} {hash : E → H} {ctrl : ℕ → C} {ent : ℕ → E}

theorem Layout.Reaches.of_full (h : H) (hr : L.Reaches ctrl h b)
    (hf : ∀ g, L.Full ctrl g → L.Full ctrl' g) : L.Reaches ctrl' h b := by
  obtain ⟨j, hj, hp, hi⟩ := hr
  exact ⟨j, hj, hp, fun i hij => hf _ (hi i hij)⟩

theorem Layout.Full.update (hf : L.Full ctrl g) (hc : c ≠ L.empty) : L.Full (Function.update ctrl b c) g := by
  intro b' hb'
  by_cases h : b' = b
  · rw [h, update_self]; exact hc
  · rw [update_of_ne h]; exact hf b' hb'

theorem Layout.Full.update_other (hf : L.Full ctrl g) (hb : ¬ L.Full ctrl (L.groupOf b)) :
    L.Full (Function.update ctrl b c) g := by
  intro b' hb'
  have hne : b' ≠ b := by
    rintro rfl
    exact hb (hb' ▸ hf)
  rw [update_of_ne hne]
  exact hf b' hb'

theorem Inv.of_empty (h : ∀ b < L.buckets, ctrl b = L.empty) : Inv L hash ctrl ent where
  valid b hb := .inr (.inl (h b hb))
  tagged b hb hl := by simp [h b hb, L.live_empty] at hl
  reach b hb hl := by simp [h b hb, L.live_empty] at hl

section

variable (hI : Inv L hash ctrl ent)
include hI

/-- **Put.** An entry may go into any bucket its path reaches. -/
theorem Inv.put {e : E} (hr : L.Reaches ctrl (hash e) b) :
    Inv L hash (update ctrl b (L.tag (hash e))) (update ent b e) := by
  have hfull : ∀ g, L.Full ctrl g → L.Full (update ctrl b (L.tag (hash e))) g :=
    fun g hg => hg.update (L.tag_ne_empty _)
  refine ⟨fun b' hb' => ?_, fun b' hb' hl => ?_, fun b' hb' hl => ?_⟩
  all_goals by_cases h : b' = b
  · subst h
    simp [L.live_tag]
  · simpa [update_of_ne h] using hI.valid b' hb'
  · subst h
    simp
  · simp only [update_of_ne h] at hl ⊢
    exact hI.tagged b' hb' hl
  · subst h
    simpa using hr.of_full _ hfull
  · simp only [update_of_ne h] at hl ⊢
    exact (hI.reach b' hb' hl).of_full _ hfull

/-- **Erase.** A full group keeps a tombstone, a group that already stops searches gets an empty bucket. -/
theorem Inv.erase {full : Bool} (hfull : full = true ↔ L.Full ctrl (L.groupOf b)) :
    Inv L hash (update ctrl b (eraseCtrl L full)) ent := by
  have hdead : L.live (eraseCtrl L full) = false := by
    cases full <;> simp [eraseCtrl, L.live_empty, L.live_deleted]
  have hkeep : ∀ g, L.Full ctrl g → L.Full (update ctrl b (eraseCtrl L full)) g := by
    intro g hg
    cases full with
    | true => exact hg.update L.deleted_ne_empty
    | false => exact hg.update_other fun hb => by simp [hb] at hfull
  refine ⟨fun b' hb' => ?_, fun b' hb' hl => ?_, fun b' hb' hl => ?_⟩
  all_goals by_cases h : b' = b
  · subst h
    cases full <;> simp [eraseCtrl]
  · simpa [update_of_ne h] using hI.valid b' hb'
  · subst h
    simp [hdead] at hl
  · simp only [update_of_ne h] at hl ⊢
    exact hI.tagged b' hb' hl
  · subst h
    simp [hdead] at hl
  · simp only [update_of_ne h] at hl
    exact (hI.reach b' hb' hl).of_full _ hkeep

theorem Inv.congr {hash' : E → H} {ent' : ℕ → E}
    (h : ∀ b < L.buckets, L.live (ctrl b) → hash' (ent' b) = hash (ent b)) : Inv L hash' ctrl ent' where
  valid := hI.valid
  tagged b hb hl := by rw [h b hb hl]; exact hI.tagged b hb hl
  reach b hb hl := by rw [h b hb hl]; exact hI.reach b hb hl

/-! ## Searching -/

/-- **Search.** If no bucket on the path of h up to step j is a live hit and the group met at step j holds an empty
bucket, then no live bucket of the table is a hit, for any notion of hit that only accepts entries of hash h. -/
theorem Inv.not_hit_of_prefix {h : H} (hit : ℕ → Prop)
    (hhash : ∀ b < L.buckets, L.live (ctrl b) → hit b → hash (ent b) = h)
    (hpre : ∀ i ≤ j, ∀ b, L.groupOf b = L.path h i → ctrl b = L.tag h → ¬ hit b)
    (hstop : ¬ L.Full ctrl (L.path h j)) : ∀ b < L.buckets, L.live (ctrl b) → ¬ hit b := by
  intro b hb hl hit_b
  have hh := hhash b hb hl hit_b
  obtain ⟨j', _, hp, hfull⟩ := hI.reach b hb hl
  have htag := hI.tagged b hb hl
  rw [hh] at hp hfull htag
  -- the bucket's own step cannot lie beyond j: group j would have to be full
  rcases Nat.lt_or_ge j j' with hlt | hge
  · exact hstop (hfull j hlt)
  · exact hpre j' hge b hp.symm htag hit_b

end

theorem exists_step_not_full (hb : b < L.buckets) (he : ctrl b = L.empty) (h : H) :
    ∃ j < L.groups, ¬ L.Full ctrl (L.path h j) := by
  obtain ⟨j, hj, hp⟩ := L.exists_step h (L.groupOf b) (L.groupOf_lt hb)
  exact ⟨j, hj, fun hf => hf b hp.symm he⟩

end Steps

end Maligator.GroupTable
