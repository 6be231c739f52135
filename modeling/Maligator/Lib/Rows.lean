/-
Insertion-ordered collections stored as rows with tombstones.

A row store is a function from positions to optional rows, read below a count. Its contents are the rows that are there,
in order of position (`entries`). A collection of key/value pairs with unique keys is the list of its entries; `insert`,
`erase` and `lookup` are the list operations that an ordered map is specified by.

`compact_spec`: moving the rows down over the tombstones, in place and in one pass, keeps the entries.
-/
import Mathlib.Tactic

namespace Maligator.Rows

open List Function

variable {K V R : Type*}

/-! ## Ordered lists of pairs -/

section Ordered

variable [DecidableEq K]

def lookup (l : List (K × V)) (k : K) : Option V := (l.find? fun p => p.1 = k).map Prod.snd

def contains (l : List (K × V)) (k : K) : Bool := (lookup l k).isSome

def insert (l : List (K × V)) (k : K) (v : V) : List (K × V) :=
  if contains l k then l.map fun p => if p.1 = k then (k, v) else p else l ++ [(k, v)]

def erase (l : List (K × V)) (k : K) : List (K × V) := l.filter fun p => decide (p.1 ≠ k)

variable {l : List (K × V)} {k : K}

theorem lookup_eq_none_iff : lookup l k = none ↔ k ∉ l.map Prod.fst := by
  rw [lookup, Option.map_eq_none_iff, find?_eq_none, mem_map]
  constructor
  · rintro h ⟨p, hp, hk⟩
    exact h p hp (by simpa using hk)
  · intro h p hp hk
    exact h ⟨p, hp, by simpa using hk⟩

theorem contains_iff : contains l k = true ↔ k ∈ l.map Prod.fst := by
  rw [contains, ← not_iff_not, ← lookup_eq_none_iff]
  simp

theorem lookup_of_mem (hu : (l.map Prod.fst).Nodup) {p : K × V} (hp : p ∈ l) : lookup l p.1 = some p.2 := by
  rw [lookup]
  cases hf : l.find? fun q => q.1 = p.1 with
  | none => exact absurd (find?_eq_none.1 hf p hp) (by simp)
  | some q =>
    have hq : q.1 = p.1 := by simpa using find?_some hf
    rw [inj_on_of_nodup_map hu (mem_of_find?_eq_some hf) hp hq]
    rfl

theorem keys_insert_of_contains (v : V) (h : contains l k = true) : (insert l k v).map Prod.fst = l.map Prod.fst := by
  rw [insert, if_pos h, map_map]
  refine map_congr_left fun p _ => ?_
  by_cases hp : p.1 = k <;> simp [hp]

theorem keys_insert_of_not_contains (v : V) (h : contains l k = false) :
    (insert l k v).map Prod.fst = l.map Prod.fst ++ [k] := by
  simp [insert, h]

theorem nodup_insert (k : K) (v : V) (h : (l.map Prod.fst).Nodup) : ((insert l k v).map Prod.fst).Nodup := by
  cases hc : contains l k with
  | true => rwa [keys_insert_of_contains v hc]
  | false =>
    rw [keys_insert_of_not_contains v hc, nodup_append]
    refine ⟨h, nodup_singleton k, ?_⟩
    rintro a ha _ hb rfl
    rw [mem_singleton] at hb
    rw [contains_iff.2 (hb ▸ ha)] at hc
    cases hc

theorem nodup_erase (k : K) (h : (l.map Prod.fst).Nodup) : ((erase l k).map Prod.fst).Nodup :=
  h.sublist (List.filter_sublist.map _)

theorem erase_of_not_contains (h : contains l k = false) : erase l k = l := by
  rw [erase, filter_eq_self]
  intro p hp
  rw [decide_eq_true_eq]
  rintro rfl
  rw [contains_iff.2 (mem_map_of_mem hp)] at h
  cases h

end Ordered

/-! ## Rows and their entries -/

def entries (row : ℕ → Option R) (n : ℕ) : List R := (List.range n).filterMap row

theorem entries_succ (row : ℕ → Option R) (n : ℕ) : entries row (n + 1) = entries row n ++ (row n).toList := by
  rw [entries, range_succ]
  cases h : row n <;> simp [entries, h]

variable {row row' : ℕ → Option R} {n i : ℕ}

theorem entries_congr (h : ∀ i < n, row i = row' i) : entries row n = entries row' n :=
  filterMap_congr fun i hi => h i (mem_range.1 hi)

theorem entries_map {S : Type*} (f : R → S) (row : ℕ → Option R) (n : ℕ) :
    entries (fun i => (row i).map f) n = (entries row n).map f := by
  rw [entries, entries, map_filterMap]

theorem entries_filter (p : R → Bool) (row : ℕ → Option R) (n : ℕ) :
    entries (fun i => (row i).filter p) n = (entries row n).filter p := by
  rw [entries, entries, filter_filterMap]

theorem mem_entries {r : R} : r ∈ entries row n ↔ ∃ i < n, row i = some r := by
  simp [entries]

def livePositions (row : ℕ → Option R) (n : ℕ) : Finset ℕ := (Finset.range n).filter fun i => (row i).isSome

theorem mem_livePositions : i ∈ livePositions row n ↔ i < n ∧ (row i).isSome = true := by
  simp [livePositions]

theorem livePositions_append (hr : ∀ i < n, row' i = row i)
    (hn : (row' n).isSome = true) : livePositions row' (n + 1) = Insert.insert n (livePositions row n) := by
  ext i
  rw [Finset.mem_insert, mem_livePositions, mem_livePositions]
  constructor
  · rintro ⟨hi, hl⟩
    rcases Nat.lt_or_eq_of_le (Nat.lt_succ_iff.1 hi) with hlt | heq
    · exact .inr ⟨hlt, hr i hlt ▸ hl⟩
    · exact .inl heq
  · rintro (rfl | ⟨hi, hl⟩)
    · exact ⟨Nat.lt_succ_self i, hn⟩
    · exact ⟨by omega, (hr i hi).symm ▸ hl⟩

theorem livePositions_congr (h : ∀ i < n, row' i = row i) : livePositions row' n = livePositions row n := by
  ext i
  rw [mem_livePositions, mem_livePositions]
  exact and_congr_right fun hi => by rw [h i hi]

theorem livePositions_update_none (row : ℕ → Option R) (n i : ℕ) :
    livePositions (update row i none) n = (livePositions row n).erase i := by
  ext j
  rw [Finset.mem_erase, mem_livePositions, mem_livePositions]
  by_cases hj : j = i
  · subst hj
    simp
  · rw [update_of_ne hj]
    tauto

theorem length_entries (row : ℕ → Option R) (n : ℕ) : (entries row n).length = (livePositions row n).card := by
  induction n with
  | zero => rfl
  | succ n ih =>
    rw [entries_succ, length_append, ih, livePositions, livePositions, Finset.range_add_one, Finset.filter_insert]
    cases h : row n with
    | none => simp
    | some r => simp

theorem length_entries_le (row : ℕ → Option R) (n : ℕ) : (entries row n).length ≤ n := by
  simpa [entries] using length_filterMap_le row (List.range n)

theorem entries_of_getElem? {l : List R} (h : ∀ j < l.length, row j = l[j]?) : entries row l.length = l := by
  induction l using List.reverseRecOn with
  | nil => rfl
  | append_singleton l r ih =>
    rw [length_append, length_singleton, entries_succ, ih, h l.length (by simp)]
    · simp
    · intro j hj
      rw [h j (by simp; omega), getElem?_append_left hj]

section Keyed

variable {row : ℕ → Option (K × V)}

variable {k : K} {v : V}

theorem position_unique (hu : ((entries row n).map Prod.fst).Nodup) {j : ℕ} (hi : i < n) (hj : j < n) {w : V}
    (h1 : row i = some (k, v)) (h2 : row j = some (k, w)) : i = j := by
  -- one position before the other would put the key into the entries twice
  have key : ∀ m a b x y, m ≤ n → a < b → b < m → row a = some (k, x) → row b = some (k, y) →
      ¬ ((entries row m).map Prod.fst).Nodup := by
    intro m
    induction m with
    | zero => intro a b _ _ _ _ hb; omega
    | succ m ih =>
      intro a b x y hm hab hb ha hbr hnd
      rw [entries_succ, map_append, nodup_append] at hnd
      rcases Nat.lt_or_eq_of_le (Nat.lt_succ_iff.1 hb) with hlt | rfl
      · exact ih a b x y (by omega) hab hlt ha hbr hnd.1
      refine hnd.2.2 k ?_ k ?_ rfl
      · exact mem_map.2 ⟨(k, x), mem_entries.2 ⟨a, hab, ha⟩, rfl⟩
      · simp [hbr]
  rcases Nat.lt_trichotomy i j with hlt | heq | hgt
  · exact absurd hu (key n i j v w le_rfl hlt hj h1 h2)
  · exact heq
  · exact absurd hu (key n j i w v le_rfl hgt hi h2 h1)

variable [DecidableEq K]

theorem contains_entries : contains (entries row n) k = true ↔ ∃ i < n, ∃ v, row i = some (k, v) := by
  rw [contains_iff, mem_map]
  constructor
  · rintro ⟨⟨k', v⟩, hmem, rfl⟩
    obtain ⟨i, hi, hr⟩ := mem_entries.1 hmem
    exact ⟨i, hi, v, hr⟩
  · rintro ⟨i, hi, v, hr⟩
    exact ⟨(k, v), mem_entries.2 ⟨i, hi, hr⟩, rfl⟩

section

variable (hu : ((entries row n).map Prod.fst).Nodup) (hi : i < n)
include hu hi

theorem lookup_entries (h : row i = some (k, v)) : lookup (entries row n) k = some v := by
  cases hl : lookup (entries row n) k with
  | none =>
    rw [lookup_eq_none_iff] at hl
    exact absurd (mem_map.2 ⟨(k, v), mem_entries.2 ⟨i, hi, h⟩, rfl⟩) hl
  | some w =>
    rw [lookup, Option.map_eq_some_iff] at hl
    obtain ⟨⟨k', w'⟩, hfind, rfl⟩ := hl
    have hk : k' = k := by simpa using find?_some hfind
    obtain ⟨j, hj, hr⟩ := mem_entries.1 (mem_of_find?_eq_some hfind)
    subst hk
    have heq := position_unique hu hi hj h hr
    subst heq
    rw [h] at hr
    cases hr
    rfl

/-- **Write.** A new value in the row of a key. -/
theorem entries_set (w : V) (h : row i = some (k, v))
    : entries (update row i (some (k, w))) n = insert (entries row n) k w := by
  rw [insert, if_pos (contains_entries.2 ⟨i, hi, v, h⟩), entries, entries, map_filterMap]
  refine filterMap_congr fun j hj => ?_
  by_cases hji : j = i
  · subst hji
    simp [h]
  rw [update_of_ne hji]
  cases hr : row j with
  | none => rfl
  | some p =>
    obtain ⟨k', x⟩ := p
    have hne : k' ≠ k := by
      rintro rfl
      exact hji (position_unique hu (mem_range.1 hj) hi hr h)
    simp [hne]

/-- **Tombstone.** The row of a key is taken out. -/
theorem entries_erase (h : row i = some (k, v)) : entries (update row i none) n = erase (entries row n) k := by
  rw [erase, entries, entries, filter_filterMap]
  refine filterMap_congr fun j hj => ?_
  by_cases hji : j = i
  · subst hji
    simp [h, Option.filter]
  rw [update_of_ne hji]
  cases hr : row j with
  | none => rfl
  | some p =>
    obtain ⟨k', x⟩ := p
    have hne : k' ≠ k := by
      rintro rfl
      exact hji (position_unique hu (mem_range.1 hj) hi hr h)
    simp [hne, Option.filter]

end

/-- **Append.** A row for a key that was not there. -/
theorem entries_append (habs : contains (entries row n) k = false) (h : row n = some (k, v)) :
    entries row (n + 1) = insert (entries row n) k v := by
  rw [entries_succ, h, insert, if_neg (by simp [habs])]
  rfl

end Keyed

/-! ## Compaction in place -/

def compactStep (st : (ℕ → Option R) × ℕ) (i : ℕ) : (ℕ → Option R) × ℕ :=
  match st.1 i with
  | none => st
  | some r => (update st.1 st.2 (some r), st.2 + 1)

theorem compactStep_none (h : row i = none) : compactStep (row, n) i = (row, n) := by
  simp [compactStep, h]

theorem compactStep_some {r : R} (h : row i = some r) : compactStep (row, n) i = (update row n (some r), n + 1) := by
  simp [compactStep, h]

structure Compacting (row : ℕ → Option R) (i : ℕ) (st : (ℕ → Option R) × ℕ) : Prop where
  next : st.2 = (entries row i).length
  done : ∀ j < st.2, st.1 j = (entries row i)[j]?
  rest : ∀ j, i ≤ j → st.1 j = row j

theorem Compacting.step {st : (ℕ → Option R) × ℕ} (h : Compacting row i st) :
    Compacting row (i + 1) (compactStep st i) := by
  have hle : st.2 ≤ i := h.next ▸ length_entries_le row i
  have hri := h.rest i le_rfl
  unfold compactStep
  cases hr : row i with
  | none =>
    rw [hri, hr]
    have he : entries row (i + 1) = entries row i := by rw [entries_succ, hr]; simp
    exact ⟨by rw [he]; exact h.next, by rw [he]; exact h.done, fun j hj => h.rest j (by omega)⟩
  | some r =>
    rw [hri, hr]
    have he : entries row (i + 1) = entries row i ++ [r] := by rw [entries_succ, hr]; rfl
    refine ⟨by rw [he]; simp [h.next], fun j hj => ?_, fun j hj => ?_⟩
    · dsimp only at hj ⊢
      rcases Nat.lt_or_eq_of_le (Nat.lt_succ_iff.1 hj) with hlt | heq
      · rw [he, update_of_ne hlt.ne, h.done j hlt, getElem?_append_left (h.next ▸ hlt)]
      subst heq
      rw [he, h.next]
      simp
    · dsimp only
      rw [update_of_ne (by omega)]
      exact h.rest j (by omega)

theorem compacting_fold (row : ℕ → Option R) (n : ℕ) :
    Compacting row n ((List.range n).foldl compactStep (row, 0)) := by
  induction n with
  | zero => exact ⟨rfl, nofun, fun j _ => rfl⟩
  | succ n ih =>
    rw [range_succ, foldl_append]
    exact ih.step

theorem compact_spec {st : (ℕ → Option R) × ℕ} (h : Compacting row n st) :
    st.2 = (entries row n).length ∧ entries st.1 st.2 = entries row n ∧ ∀ j < st.2, (st.1 j).isSome = true := by
  refine ⟨h.next, ?_, fun j hj => ?_⟩
  · rw [h.next]
    exact entries_of_getElem? fun j hj => h.done j (h.next ▸ hj)
  · rw [h.done j hj]
    have : j < (entries row n).length := h.next ▸ hj
    simp [this]

end Maligator.Rows
