/-
Rows of keys with an index over them, whatever the layout that stores them.

A table is a function from positions to keys, read below a count, and an open-addressing index that holds the positions of
the keys that are there. Set storage is one, and so is a Map's key column. `RowsOk` says that the keys are canonical, lie in
the table's domain and are unique.

`lookup_answers`, `find_answers`: a search whose test decides key equality finds the row of an equal key if there is one.
`holds_append`, `holds_erase`, `holds_fill`: the index follows the rows.
-/
import Maligator.Capacity
import Maligator.KeyDomain
import Maligator.Lib.LiveList

namespace Maligator.KeyRows

open HashIndex Function Option List Rows

section

variable (env : KeyEnv) (row : ℕ → Option MalValue) (n : ℕ)

def denoted (i : ℕ) : Option (CollectionKey × Unit) :=
  (row i).map fun key => (env.den key, ())

def members : List (CollectionKey × Unit) :=
  entries (denoted env row) n

def rowHash (i : ℕ) : BitVec 64 :=
  keyHashValue env ((row i).getD valueEmpty)

def Absent (key : MalValue) : Prop :=
  ∀ i < n, ∀ k, row i = some k → env.den k ≠ env.den key

def RowOf (key : MalValue) (i : ℕ) : Prop :=
  i < n ∧ ∃ k, row i = some k ∧ env.den k = env.den key

end

/-- keys are canonical, in the domain and unique -/
structure RowsOk (env : KeyEnv) (domain : MalKeyDomain) (row : ℕ → Option MalValue) (n : ℕ) : Prop where
  keyOk : ∀ i < n, ∀ k, row i = some k → Canonical k ∧ Fits domain k
  nodup : ((members env row n).map Prod.fst).Nodup

variable {env : KeyEnv} {row row' : ℕ → Option MalValue} {n : ℕ} {key : MalValue} {domain : MalKeyDomain}

variable {i b : ℕ}

theorem RowOf.denoted (h : RowOf env row n key i) : denoted env row i = some (env.den key, ()) := by
  obtain ⟨_, k, hk, hd⟩ := h
  rw [KeyRows.denoted, hk, map_some, hd]

theorem RowOf.mem (h : RowOf env row n key i) : i ∈ livePositions row n := by
  obtain ⟨hi, k, hk, _⟩ := h
  exact mem_livePositions.2 ⟨hi, by rw [hk]; rfl⟩

theorem RowOf.contains (h : RowOf env row n key i) : contains (members env row n) (env.den key) = true :=
  contains_entries.2 ⟨i, h.1, (), h.denoted⟩

theorem Absent.contains (h : Absent env row n key) : contains (members env row n) (env.den key) = false := by
  rw [← Bool.not_eq_true, members, contains_entries]
  rintro ⟨i, hi, v, hr⟩
  rw [KeyRows.denoted, map_eq_some_iff] at hr
  obtain ⟨k, hk, heq⟩ := hr
  exact h i hi k hk (congrArg Prod.fst heq)

theorem absent_of_empty (h : (livePositions row n).card = 0) : Absent env row n key := by
  intro i hi k hk
  have hmem : i ∈ livePositions row n := mem_livePositions.2 ⟨hi, by rw [hk]; rfl⟩
  rw [Finset.card_eq_zero.1 h] at hmem
  exact absurd hmem (Finset.notMem_empty i)

theorem Absent.congr (h : Absent env row n key) (hr : ∀ i < n, row' i = row i) : Absent env row' n key :=
  fun i hi k hk => h i hi k (hr i hi ▸ hk)

theorem denoted_congr (hr : ∀ i < n, row' i = row i) : ∀ i < n, denoted env row' i = denoted env row i :=
  fun i hi => by rw [denoted, denoted, hr i hi]

section

variable (env : KeyEnv) (row : ℕ → Option MalValue) (n : ℕ)

theorem denoted_update (i : ℕ) (r : Option MalValue) : denoted env (update row i r) =
      update (denoted env row) i (r.map fun key => (env.den key, ())) := by
  funext j
  by_cases hj : j = i
  · subst hj
    simp [denoted]
  · simp [denoted, update_of_ne hj]

theorem livePositions_denoted : livePositions (denoted env row) n = livePositions row n := by
  ext i
  rw [mem_livePositions, mem_livePositions, denoted, isSome_map]

theorem members_eq_map : members env row n = (entries row n).map fun key => (env.den key, ()) := entries_map _ row n

theorem length_members : (members env row n).length = (livePositions row n).card := by
  rw [members, length_entries, livePositions_denoted]

end

/-! ## Rows -/

section

variable (h : RowsOk env domain row n)
include h

theorem RowsOk.congr (hr : ∀ i < n, row' i = row i) : RowsOk env domain row' n :=
  ⟨fun i hi k hk => h.keyOk i hi k (hr i hi ▸ hk), by rw [members, entries_congr (denoted_congr hr)]; exact h.nodup⟩

theorem RowsOk.widen {domain' : MalKeyDomain}
    (hf : ∀ i < n, ∀ k, row i = some k → Fits domain' k) : RowsOk env domain' row n :=
  ⟨fun i hi k hk => ⟨(h.keyOk i hi k hk).1, hf i hi k hk⟩, h.nodup⟩

theorem RowsOk.absent (hf : ¬ Fits domain key) : Absent env row n key :=
  fun i hi k hk hd => hf (fits_of_den_eq env (h.keyOk i hi k hk).2 hd)

/-- **Append** of a row for an absent key. -/
theorem RowsOk.append (hc : Canonical key) (hf : Fits domain key)
    (habs : Absent env row n key) (hr : ∀ i < n, row' i = row i) (hn : row' n = some key) :
    RowsOk env domain row' (n + 1) := by
  have h' := h.congr hr
  refine ⟨fun i hi k hk => ?_, ?_⟩
  · rcases Nat.lt_or_eq_of_le (Nat.lt_succ_iff.1 hi) with hlt | rfl
    · exact h'.keyOk i hlt k hk
    · rw [hn, some.injEq] at hk
      exact hk ▸ ⟨hc, hf⟩
  · have hden : denoted env row' n = some (env.den key, ()) := by rw [denoted, hn]; rfl
    rw [members, entries_append (habs.congr hr).contains hden]
    exact nodup_insert _ _ h'.nodup

/-- **Removal** of a row. -/
theorem RowsOk.erase (hrow : RowOf env row n key i) : RowsOk env domain (update row i none) n := by
  refine ⟨fun j hj k hk => ?_, ?_⟩
  · by_cases hji : j = i
    · subst hji
      rw [update_self] at hk
      cases hk
    · rw [update_of_ne hji] at hk
      exact h.keyOk j hj k hk
  · have hm : members env (update row i none) n = Rows.erase (members env row n) (env.den key) := by
      rw [members, denoted_update, map_none, entries_erase h.nodup hrow.1 hrow.denoted, members]
    rw [hm]
    exact nodup_erase _ h.nodup

/-! ## Searches -/

end

theorem find?_answers {hit : ℕ → Bool} (hhit : ∀ i < n, hit i = true ↔ RowOf env row n key i) :
    ((List.range n).find? hit).elim (Absent env row n key) (RowOf env row n key) := by
  cases hfind : (List.range n).find? hit with
  | none =>
    intro i hi c hc hd
    exact List.find?_eq_none.1 hfind i (List.mem_range.2 hi) ((hhit i hi).2 ⟨hi, c, hc, hd⟩)
  | some i => exact (hhit i (List.mem_range.1 (List.mem_of_find?_eq_some hfind))).1 (List.find?_some hfind)

section Search

variable {k deleted : ℕ} {index : MalHashIndex ℕ} (hH : Holds k (rowHash env row) index deleted (livePositions row n))
  (hit : ℕ → Bool) (hhit : ∀ i < n, ∀ c, row i = some c → (hit i = true ↔ env.den c = env.den key))

def BucketAnswers (env : KeyEnv) (row : ℕ → Option MalValue) (n : ℕ) (index : MalHashIndex ℕ) (key : MalValue)
    (found : Option ℕ) : Prop :=
  match found with
  | none => Absent env row n key
  | some b => b < index.capacity ∧ index.controls b < hashEmpty ∧ RowOf env row n key (index.slots b)

include hhit in
theorem rowHash_of_hit : ∀ i ∈ livePositions row n, hit i = true → rowHash env row i = keyHashValue env key := by
  intro i hi hh
  obtain ⟨hlt, hsome⟩ := mem_livePositions.1 hi
  obtain ⟨c, hc⟩ := isSome_iff_exists.1 hsome
  rw [rowHash, hc]
  exact keyHashValue_eq env ((hhit i hlt c hc).1 hh)

include hhit in
theorem absent_of_no_hit (h : ∀ i ∈ livePositions row n, hit i = false) : Absent env row n key := by
  intro i hi c hc hd
  have := h i (mem_livePositions.2 ⟨hi, by rw [hc]; rfl⟩)
  rw [(hhit i hi c hc).2 hd] at this
  cases this

include hhit in
theorem rowOf_of_hit (hi : i ∈ livePositions row n) (hh : hit i = true) : RowOf env row n key i := by
  obtain ⟨hlt, hsome⟩ := mem_livePositions.1 hi
  obtain ⟨c, hc⟩ := isSome_iff_exists.1 hsome
  exact ⟨hlt, c, hc, (hhit i hlt c hc).1 hh⟩

include hH hhit

theorem lookup_answers : ∃ found, hashSearch index.controls index.capacity (keyHashValue env key)
      (fun b => hit (index.slots b)) false = some found ∧ BucketAnswers env row n index key found := by
  obtain ⟨found, hs, hout⟩ := hH.lookup hit (rowHash_of_hit hit hhit)
  refine ⟨found, hs, ?_⟩
  cases found with
  | none => exact absent_of_no_hit hit hhit hout
  | some b => exact ⟨hH.cap ▸ hout.1, hout.2.1, rowOf_of_hit hit hhit hout.2.2.1 hout.2.2.2⟩

theorem find_answers : ∃ b, hashSearch index.controls index.capacity (keyHashValue env key)
      (fun b => hit (index.slots b)) true = some (some b) ∧
      ((index.controls b < hashEmpty ∧ RowOf env row n key (index.slots b)) ∨
        (Holds.Vacant k index (keyHashValue env key) b ∧ Absent env row n key)) := by
  obtain ⟨b, _, hs, hout⟩ := hH.find hit (rowHash_of_hit hit hhit)
  refine ⟨b, hs, ?_⟩
  rcases hout with ⟨hctrl, hmem, hh⟩ | ⟨hvac, hmiss⟩
  · exact .inl ⟨hctrl, rowOf_of_hit hit hhit hmem hh⟩
  · exact .inr ⟨hvac, absent_of_no_hit hit hhit hmiss⟩

end Search

/-! ## The index follows the rows -/

section Index

variable {k deleted : ℕ} {index : MalHashIndex ℕ}

section

variable (hH : Holds k (rowHash env row) index deleted (livePositions row n))
include hH

theorem holds_congr (hr : ∀ i < n, row' i = row i) : Holds k (rowHash env row') index deleted (livePositions row' n) := by
  rw [livePositions_congr hr]
  refine hH.congr_hash fun i hi => ?_
  rw [rowHash, rowHash, hr i (mem_livePositions.1 hi).1]

theorem holds_append (hr : ∀ i < n, row' i = row i) (hn : row' n = some key)
    (hvac : Holds.Vacant k index (keyHashValue env key) b)
    (hfits : hashIndexFits ((livePositions row n).card + 1 + (deleted - (index.controls b == hashDeleted).toNat)) (16 * 2 ^ k) = true)
    : Holds k (rowHash env row') (hashIndexInsert index b n (keyHashValue env key))
      (deleted - (index.controls b == hashDeleted).toNat) (livePositions row' (n + 1)) := by
  have hhash : rowHash env row' n = keyHashValue env key := by rw [rowHash, hn, getD_some]
  have hH' := holds_congr hH hr
  rw [livePositions_append hr (by rw [hn]; rfl), ← livePositions_congr hr, ← hhash]
  refine hH'.insert (hhash.symm ▸ hvac) (fun h => lt_irrefl _ (mem_livePositions.1 h).1) ?_
  rw [livePositions_congr hr]
  exact hfits

theorem holds_erase (hb : b < index.capacity) (hl : index.controls b < hashEmpty) :
    Holds k (rowHash env (update row (index.slots b) none)) (hashIndexErase index b).1
      (deleted + (hashIndexErase index b).2.toNat) (livePositions (update row (index.slots b) none) n) := by
  rw [livePositions_update_none]
  refine (hH.erase (hH.cap ▸ hb) hl).congr_hash fun i hi => ?_
  rw [rowHash, rowHash, update_of_ne (Finset.mem_erase.1 hi).1]

end

theorem holds_fill (env : KeyEnv) (row : ℕ → Option MalValue) (n : ℕ) {live : ℕ → Bool} {hash : ℕ → BitVec 64}
    (hlive : ∀ i < n, live i = (row i).isSome) (hhash : ∀ i < n, live i = true → hash i = rowHash env row i)
    (slots : ℕ → ℕ) (hfits : hashIndexFits (livePositions row n).card (16 * 2 ^ k) = true) :
    ∃ index, hashIndexFill hash (hashIndexReset slots (16 * 2 ^ k)) ((range n).filter live) = some index ∧
      Holds k (rowHash env row) index 0 (livePositions row n) := by
  have hset : ((range n).filter live).toFinset = livePositions row n := by
    ext i
    rw [List.mem_toFinset, List.mem_filter, List.mem_range, mem_livePositions]
    exact and_congr_right fun hi => by rw [hlive i hi]
  have hnd : ((range n).filter live).Nodup := nodup_range.filter _
  have hlen : ((range n).filter live).length = (livePositions row n).card := by
    rw [← hset, toFinset_card_of_nodup hnd]
  obtain ⟨index, hfill, hH⟩ := Holds.rebuild k hash slots hnd (hlen ▸ hfits)
  rw [hset] at hH
  refine ⟨index, hfill, hH.congr_hash fun i hi => ?_⟩
  obtain ⟨hi, hs⟩ := mem_livePositions.1 hi
  exact (hhash i hi ((hlive i hi).trans hs)).symm

end Index

end Maligator.KeyRows
