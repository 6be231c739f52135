/-
What the internal steps of Set storage do to its rows: writing a row, replacing the payload, rebuilding the index and
compacting. Each is one lemma about `setStore`.

`setCompact_spec`: compaction keeps the members in order.
-/
import Maligator.Set.Invariant

namespace Maligator.SetObject

open HashIndex Function Option Rows KeyRows Collection

/-! ## Writing a row -/

theorem controlLive_setLive : controlLive setLive = true := by decide

variable {s t : MalSetStorage} {env : SetEnv}

variable {i k : ℕ} {d e : MalSetKeyDomain}

theorem setStore_update {r : Option MalValue} (hrow : setRow t = update (setRow s) i r)
    (hinline : t.payload = none ↔ s.payload = none) (hrest : t = { s with payload := t.payload, small := t.small }) :
    setStore t = { setStore s with row := update (setStore s).row i (r.map (·, ())) } := by
  have hrows : (fun j => (setRow t j).map (·, ())) = update (setStore s).row i (r.map (·, ())) := by
    funext j
    rw [hrow]
    by_cases hj : j = i
    · subst hj
      simp
    · simp [hj, setStore]
  rw [setStore, hrows, hinline, hrest]
  rfl

theorem setStore_storeKey (s : MalSetStorage) (i : ℕ) {key : MalValue} (hk : Storable s.domain key)
    (hne : key ≠ valueEmpty) :
    setStore (setStoreKey s i key) = { setStore s with row := update (setStore s).row i (some (key, ())) } := by
  refine setStore_update (r := some key) ?_ ?_ ?_
  · funext j
    cases hp : s.payload with
    | none => by_cases hj : j = i <;> simp [setRow, setIsLive, setKeyAt, setStoreKey, hp, hne, hj]
    | some p =>
      by_cases hd : s.domain = .int32
      · by_cases hj : j = i <;> simp [setRow, setIsLive, setKeyAt, setStoreKey, hp, hd, controlLive_setLive, hk hd, hj]
      · by_cases hj : j = i <;> simp [setRow, setIsLive, setKeyAt, setStoreKey, hp, hd, hne, hj]
  all_goals cases hp : s.payload <;> simp [setStoreKey, hp]

theorem setStore_markDeleted (s : MalSetStorage) (i : ℕ) :
    setStore (setMarkDeleted s i) = { setStore s with row := update (setStore s).row i none } := by
  refine setStore_update (r := none) ?_ ?_ ?_
  · funext j
    cases hp : s.payload with
    | none => by_cases hj : j = i <;> simp [setRow, setIsLive, setKeyAt, setMarkDeleted, hp, hj]
    | some p =>
      by_cases hd : s.domain = .int32
      · by_cases hj : j = i <;> simp [setRow, setIsLive, setKeyAt, setMarkDeleted, hp, hd, controlLive, hj]
      · by_cases hj : j = i <;> simp [setRow, setIsLive, setKeyAt, setMarkDeleted, hp, hd, hj]
  all_goals cases hp : s.payload <;> simp [setMarkDeleted, hp]

theorem setStore_moveRow (s : MalSetStorage) (j : ℕ) (hl : setIsLive s i = true) :
    setStore (setMoveRow s i j) = { setStore s with row := update (setStore s).row j ((setStore s).row i) } := by
  refine setStore_update ?_ ?_ ?_
  · rw [setRow_of_live hl]
    funext m
    cases hp : s.payload with
    | none =>
      have hne : s.small i ≠ valueEmpty := by simpa [setIsLive, hp] using hl
      by_cases hm : m = j <;> simp [setRow, setIsLive, setKeyAt, setMoveRow, hp, hne, hm]
    | some p =>
      by_cases hd : s.domain = .int32
      · by_cases hm : m = j <;> simp [setRow, setIsLive, setKeyAt, setMoveRow, hp, hd, controlLive_setLive, hm]
      · have hne : p.members i ≠ valueEmpty := by simpa [setIsLive, hp, hd] using hl
        by_cases hm : m = j <;> simp [setRow, setIsLive, setKeyAt, setMoveRow, hp, hd, hne, hm]
  all_goals cases hp : s.payload <;> simp [setMoveRow, hp]

/-! ## Replacing the payload -/

theorem setRowWidth_eq_iff : setRowWidth d = setRowWidth e ↔ (d = .int32 ↔ e = .int32) := by
  unfold setRowWidth
  split_ifs with h1 h2 h2 <;> simp [h1, h2]

theorem setReplacePayload_rows (env : SetEnv) (c : ℕ)
    (hk : ∀ i < s.count, ∀ key, setRow s i = some key → Storable d key)
    (hpack : d = .int32 → s.payload ≠ none → s.domain = .int32) :
    ∀ i < s.count, setRow (setReplacePayload env s d c) i = setRow s i := by
  intro i hi
  cases hp : s.payload with
  | none =>
    by_cases hd : d = .int32
    · by_cases he : s.small i = valueEmpty
      · simp [setRow, setIsLive, setReplacePayload, setPackSmall, copyRows, hp, hd, hi, he, controlLive]
      have hrow : setRow s i = some (s.small i) := by simp [setRow, setIsLive, setKeyAt, hp, he]
      have hst := hk i hi _ hrow hd
      simp [setRow, setIsLive, setKeyAt, setReplacePayload, setPackSmall, copyRows, hp, hd, hi, he,
        controlLive_setLive, hst]
    · simp [setRow, setIsLive, setKeyAt, setReplacePayload, copyRows, hp, hd, hi]
  | some old =>
    by_cases hw : setRowWidth d = setRowWidth s.domain
    · by_cases hd : d = .int32
      · have hs := (setRowWidth_eq_iff.1 hw).1 hd
        simp [setRow, setIsLive, setKeyAt, setReplacePayload, copyRows, hp, hd, hs, hi]
      · have hs : s.domain ≠ .int32 := fun h => hd ((setRowWidth_eq_iff.1 hw).2 h)
        simp [setRow, setIsLive, setKeyAt, setReplacePayload, copyRows, hp, hd, hs, hw, hi]
    have hd : d ≠ .int32 := fun h =>
      hw (setRowWidth_eq_iff.2 (iff_of_true h (hpack h (by rw [hp]; simp))))
    have hs : s.domain = .int32 := by
      by_contra h
      exact hw (setRowWidth_eq_iff.2 (iff_of_false hd h))
    have hne := (canonical_ofI32 (old.ints i)).notEmpty
    rw [hs] at hw
    cases hl : controlLive (old.controls i) with
    | false => simp [setRow, setIsLive, setReplacePayload, setUnpack, copyRows, hp, hd, hs, hw, hi, hl]
    | true => simp [setRow, setIsLive, setKeyAt, setReplacePayload, setUnpack, copyRows, hp, hd, hs, hw, hi, hl, hne]

/-- **Conversion keeps every row at its position.** Only inline rows are ever packed. -/
theorem setReplacePayload_agree (hI : (setStore s).RowsInv env) (c : ℕ)
    (hfit : ∀ i < s.count, ∀ k, (setStore s).keys i = some k → Fits d k)
    (hpack : d = .int32 → s.payload ≠ none → s.domain = .int32) :
    Store.Agree { setStore s with inline := False, capacity := c, domain := d } (setStore (setReplacePayload env s d c)) := by
  have hrow := setReplacePayload_rows env c (fun i hi k hk => ?_) hpack
  · exact ⟨(setStore _).row, fun i hi => congrArg (Option.map (·, ())) (hrow i hi), by simp [setStore, setReplacePayload]⟩
  · rw [← keys_setStore] at hk
    exact storable_of_fits (hI.rows.keyOk i hi k hk).1 (hfit i hi k hk)

/-! ## The index -/

theorem setFillSlots_spec {env : KeyEnv} (hI : (setStore s).RowsInv env) (slots : ℕ → ℕ)
    (hfits : hashIndexFits s.size (16 * 2 ^ k) = true) :
    ∃ index, setFillSlots env s slots (16 * 2 ^ k) = some { s with index := index, deletedSlots := 0 } ∧
      (setStore { s with index := index, deletedSlots := 0 }).Indexed env k := by
  have hlive : ∀ i < s.count, setIsLive s i = ((setStore s).keys i).isSome := fun i _ => by
    rw [keys_setStore, setRow_isSome]
  have hhash : ∀ i < s.count, setIsLive s i = true →
      keyHashValue env (setKeyAt s i) = rowHash env (setStore s).keys i := by
    intro i _ hl
    rw [rowHash, keys_eq_some.2 ⟨hl, rfl⟩, getD_some]
  rw [← show (setStore s).size = s.size from rfl, hI.size] at hfits
  obtain ⟨index, hfill, hH⟩ := holds_fill env (setStore s).keys s.count hlive hhash slots hfits
  refine ⟨index, ?_, hH⟩
  simp only [setFillSlots, hfill, bind_eq_bind, bind_some, pure_def]

/-! ## Compaction -/

structure SetCompacting (s : MalSetStorage) (i : ℕ) (st : MalSetStorage × ℕ) : Prop where
  rows : Compacting (setStore s).row i ((setStore st.1).row, st.2)
  rest : setStore st.1 = { setStore s with row := (setStore st.1).row }

theorem SetCompacting.step {st : MalSetStorage × ℕ} (h : SetCompacting s i st) :
    SetCompacting s (i + 1) (setCompactRow st i) := by
  have hstep := h.rows.step
  have hrow : (setStore st.1).row i = (setRow st.1 i).map (·, ()) := rfl
  unfold setCompactRow
  split_ifs with hl
  · rw [setRow_of_live hl] at hrow
    rw [compactStep_some hrow] at hstep
    have hmove := setStore_moveRow st.1 st.2 hl
    rw [hrow] at hmove
    refine ⟨?_, ?_⟩
    · rw [hmove]
      exact hstep
    · rw [hmove, h.rest]
  · rw [setRow, if_neg hl] at hrow
    rw [compactStep_none hrow] at hstep
    exact ⟨hstep, h.rest⟩

theorem setCompacting_fold (s : MalSetStorage) (n : ℕ) :
    SetCompacting s n ((List.range n).foldl setCompactRow (s, 0)) := by
  induction n with
  | zero => exact ⟨⟨rfl, nofun, fun j _ => rfl⟩, rfl⟩
  | succ n ih =>
    rw [List.range_succ, List.foldl_append]
    exact ih.step

theorem setDemote_spec {env : KeyEnv} (hI : (setStore t).RowsInv env) (hlive : ∀ i < t.count, setIsLive t i = true)
    (hpins : t.pins = 0) (hsmall : t.count ≤ setSmallCapacity) :
    SetInv env (setDemote t) ∧ Store.Compacted env (setStore t) (setStore (setDemote t)) := by
  have hrow : ∀ i < t.count, setRow (setDemote t) i = setRow t i := by
    intro i hi
    have hl := hlive i hi
    have hne : setKeyAt t i ≠ valueEmpty := (hI.rows.keyOk i hi _ (keys_eq_some.2 ⟨hl, rfl⟩)).1.notEmpty
    have hsmall : (setDemote t).small i = setKeyAt t i := by
      cases hp : t.payload with
      | none => simp [setDemote, setKeyAt, hp]
      | some p => simp [setDemote, hp, copyRows, hi]
    have hlive : setIsLive (setDemote t) i = true := by
      change ((setDemote t).small i != valueEmpty) = true
      rw [hsmall]
      simpa using hne
    rw [setRow_of_live hl, setRow_of_live hlive]
    exact congrArg some hsmall
  have hagree : Store.Agree { setStore t with
      inline := True, index := { t.index with capacity := 0 }, capacity := 4, deletedSlots := 0, reserveSize := 0,
      domain := if t.count = 0 then .empty else t.domain } (setStore (setDemote t)) :=
    ⟨(setStore (setDemote t)).row, fun i hi => congrArg (Option.map (·, ())) (hrow i hi),
      by simp [setStore, setDemote, setSmallCapacity]⟩
  exact ⟨hagree.inv (hI.demote hsmall rfl 0), hagree.contents, rfl, rfl, le_rfl, Nat.zero_le _, fun h => absurd hpins h⟩

/-- **After the pass**: back to inline rows, or a payload and an index of the right size. -/
theorem setCompactFinish_spec (hI : (setStore t).RowsInv env) (hlive : ∀ i < t.count, setIsLive t i = true)
    (hfull : t.count = t.size) (hpins : t.pins = 0) (hp : setSmallCapacity < t.count → t.payload ≠ none) :
    ∃ u, setCompactFinish env t = some u ∧ SetInv env u ∧ Store.Compacted env (setStore t) (setStore u) := by
  unfold setCompactFinish
  split_ifs with hsmall
  · exact ⟨_, rfl, setDemote_spec hI hlive hpins hsmall⟩
  have hpay := hp (not_le.1 hsmall)
  have hmem : t.count ≤ memberLimit := hfull ▸ hI.sizeLe
  have hlimit : memberLimit ≤ 2 ^ 30 := by decide
  obtain ⟨c, hc, hge, hc0, hclt⟩ := collectionCapacity_spec t.count 8 (hmem.trans hlimit) (by decide) (by decide)
  obtain ⟨k, hk, hfits⟩ := collectionSlotCapacity_spec hmem
  rw [setCapacity, hc]
  simp only [bind_eq_bind, bind_some]
  generalize hv : (if c < t.capacity then setReplacePayload env t t.domain c else t) = v
  have hshrunk : (setStore v).RowsInv env ∧ Store.Compacted env (setStore t) (setStore v) ∧ v.payload ≠ none ∧
      v.count = t.count := by
    rw [← hv]
    split_ifs
    · obtain ⟨hrows, hcomp⟩ := hI.shrink hpay hpins ⟨hge, hc0, hclt⟩ (setReplacePayload_agree hI c
        (fun i hi k hk => (hI.rows.keyOk i hi k hk).2) fun h _ => h)
      exact ⟨hrows, hcomp, by simp [setReplacePayload], rfl⟩
    · exact ⟨hI, Store.Compacted.refl _ _, hpay, rfl⟩
  obtain ⟨hrows, hcomp, hvp, hvc⟩ := hshrunk
  have hvs : v.size = t.size := hcomp.size
  -- either way the index is filled from the rows; only the slots it is built in differ
  have hfill : ∀ slots, ∃ u, setFillSlots env v slots (16 * 2 ^ k) = some u ∧ SetInv env u ∧
      Store.Compacted env (setStore t) (setStore u) := by
    intro slots
    obtain ⟨index, hf, hH⟩ := setFillSlots_spec hrows slots (by rw [hvs, ← hfull]; exact hfits)
    exact ⟨_, hf, hrows.reindex hvp hH, { hcomp with pinned := fun h => absurd hpins h }⟩
  rw [hvc, setSlotCapacity, hk]
  simp only [bind_some]
  split_ifs
  · exact hfill env.freshSlots
  · exact hfill v.index.slots

theorem setCompact_spec (hI : SetInv env s) :
    ∃ t, setCompact env s = some t ∧ SetInv env t ∧ Store.Compacted env (setStore s) (setStore t) := by
  unfold setCompact
  split_ifs with hpin
  · exact ⟨s, rfl, hI, Store.Compacted.refl _ _⟩
  have hpins : s.pins = 0 := not_not.1 hpin
  have hfold := setCompacting_fold s s.count
  unfold setCompactRows
  generalize (List.range s.count).foldl setCompactRow (s, 0) = st at hfold
  obtain ⟨t, n⟩ := st
  obtain ⟨hrows, hcomp, hsize, hlive⟩ := hI.packed hpins hfold.rows
  have hstore : setStore { t with count := n } = { setStore s with row := (setStore t).row, count := n } :=
    congrArg (fun T : Store Unit => { T with count := n }) hfold.rest
  rw [← hstore] at hrows hcomp
  have hlive' : ∀ i < n, setIsLive t i = true := fun i hi => by
    have h := hlive i hi
    change ((setRow t i).map _).isSome = true at h
    rwa [isSome_map, setRow_isSome] at h
  have hspill : setSmallCapacity < n → t.payload ≠ none := by
    intro hgt hn
    have hcap : s.capacity = setSmallCapacity := (hI.small ((congrArg Store.inline hfold.rest).mp hn)).1
    have hle : n ≤ s.capacity := hcomp.count.trans hI.countLe
    omega
  obtain ⟨u, hu, hinv, hcomp'⟩ := setCompactFinish_spec (t := { t with count := n }) hrows hlive'
    (hsize.trans hcomp.size.symm) (hcomp.pins.trans hpins) hspill
  exact ⟨u, hu, hinv, hcomp.trans hcomp'⟩

theorem setCompactIfDue_spec (hI : SetInv env s) :
    ∃ t, setCompactIfDue env s = some t ∧ SetInv env t ∧ Store.Compacted env (setStore s) (setStore t) := by
  unfold setCompactIfDue
  split_ifs
  · exact setCompact_spec hI
  · exact ⟨s, rfl, hI, Store.Compacted.refl _ _⟩

end Maligator.SetObject
