/-
The other operations of a Set, up to its data.

`setObjectDeleteCanonical_spec`: deletion empties the member's place and says whether there was one.
`setObjectClear_spec`, `setObjectReserve_spec`, `setObjectCompact_spec`: clear empties every place; the others change none.
`setIterAll_spec`: a cursor that runs undisturbed yields the members.
-/
import Maligator.Set.Insert

namespace Maligator.SetObject

open HashIndex Option Rows LiveList KeyRows Collection

/-! ## Deletion -/

variable {s : MalSetStorage} {env : SetEnv} {set : MalSetObject}

theorem setStore_deleteRow (s : MalSetStorage) (i : ℕ) : setStore (setDeleteRow s i) = (setStore s).erase i :=
  congrArg (fun T : Store Unit => { T with size := T.size - 1 }) (setStore_markDeleted s i)

theorem setDeleteFind_spec {env : KeyEnv} (hI : SetInv env s) {key : MalValue} (hc : Canonical key) :
    (setDeleteFind env s key = some none ∧ (setStore s).Lacks env key) ∨
      ∃ w i, setDeleteFind env s key = some (some (w, i)) ∧ (setStore s).HasAt env key i ∧ SetInv env (setDeleteRow w i) ∧
        Store.Effect env (setStore s) (setStore (setDeleteRow w i)) (remove · (env.den key)) := by
  unfold setDeleteFind
  by_cases hp : s.payload = none
  · rw [if_pos (by simp [hp])]
    split_ifs with hacc
    · have hspec := setSmallFind_spec hI.toRowsInv hp ((setAcceptsQuery_iff s key).2 hacc)
      cases hfind : setSmallFind env s key with
      | none =>
        rw [hfind] at hspec
        exact .inl ⟨rfl, hspec⟩
      | some i =>
        rw [hfind] at hspec
        refine .inr ⟨s, i, rfl, hspec, ?_⟩
        rw [SetInv, setStore_deleteRow]
        exact hI.erase hspec hp
    · exact .inl ⟨rfl, hI.rows.absent fun hf => hacc ((setAcceptsQuery_iff s key).1 hf)⟩
  · rw [if_neg (by simpa using hp)]
    obtain ⟨found, hfound, hans⟩ := setLookupSlot_spec hI hc hp
    rw [hfound]
    cases found with
    | none => exact .inl ⟨rfl, hans⟩
    | some b =>
      obtain ⟨hb, hctrl, hrow⟩ := hans
      refine .inr ⟨_, _, rfl, hrow, ?_⟩
      rw [SetInv, setStore_deleteRow]
      exact hI.release hp hb hctrl hrow

/-! ## Clear -/

theorem setInv_storageNew (env : SetEnv) : SetInv env (setStorageNew env) := Store.inv_empty rfl rfl rfl rfl rfl rfl rfl

theorem setClearRows_row (s : MalSetStorage) : ∀ i < s.count, (setStore (setClearRows s)).row i = none := by
  intro i hi
  rw [setStore]
  cases hp : s.payload with
  | none => simp [setRow, setIsLive, setClearRows, setClearPayload, hp, copyRows, hi]
  | some p =>
    by_cases hd : s.domain = .int32
    · simp [setRow, setIsLive, setClearRows, setClearPayload, hp, hd, copyRows, hi, controlLive]
    · simp [setRow, setIsLive, setClearRows, setClearPayload, hp, hd, copyRows, hi]

/-- **Clearing** empties every place and resets the index. -/
theorem setClearRows_spec {env : KeyEnv} (hI : SetInv env s) : SetInv env (setClearRows s) ∧
    Store.Effect env (setStore s) (setStore (setClearRows s)) removeAll := by
  have hinline : (setClearRows s).payload = none ↔ s.payload = none := by
    cases hp : s.payload <;> simp [setClearRows, setClearPayload, hp]
  refine hI.clear (setClearRows_row s) hinline ?_
  cases hp : s.payload <;> simp [setStore, setClearRows, setClearPayload, hp]

structure ReserveRoom (s : MalSetStorage) (desiredSize : ℕ) : Prop where
  members : desiredSize ≤ memberLimit
  rows : s.count + desiredSize - s.size ≤ 2 ^ 30

/-! ## Calls on the object -/

section

variable (hI : SetInv env (setObjectStorage env set))
include hI

theorem setObjectDeleteCanonical_spec {key : MalValue} (hc : Canonical key) :
    ∃ set', setObjectDeleteCanonical env set key =
        some (set', contains ((setStore (setObjectStorage env set)).contents env) (env.den key)) ∧
      SetEffect env (setObjectStorage env set) (setObjectStorage env set') (remove · (env.den key)) := by
  -- nothing changes when no row has the key
  have hmiss : (setStore (setObjectStorage env set)).Lacks env key →
      ∃ set', some (set, false) =
        some (set', contains ((setStore (setObjectStorage env set)).contents env) (env.den key)) ∧
      SetEffect env (setObjectStorage env set) (setObjectStorage env set') (remove · (env.den key)) :=
    fun habs => ⟨set, by rw [Store.contains_of_absent habs], hI, .remove_absent habs⟩
  unfold setObjectDeleteCanonical
  cases he : set.entries with
  | none =>
    refine hmiss ?_
    rw [setObjectStorage, he]
    exact fun _ h => by cases h
  | some s =>
    have hs := setObjectStorage_of_entries env he
    rw [hs] at hI hmiss ⊢
    dsimp only
    split_ifs with hz
    · exact hmiss (absent_of_empty (hI.size.symm.trans hz))
    rcases setDeleteFind_spec hI hc with ⟨hnone, habs⟩ | ⟨w, i, hsome, hrow, hinv, heff⟩
    · rw [hnone]
      exact hmiss habs
    obtain ⟨u, hu, hinv', hcomp⟩ := setCompactIfDue_spec hinv
    refine ⟨⟨some u⟩, ?_, hinv', heff.compacted hcomp.effect⟩
    rw [hsome, Store.contains_of_rowOf hrow]
    simp only [bind_eq_bind, bind_some, pure_def, hu]

theorem setObjectClear_spec : ∃ set', setObjectClear env set = some set' ∧
      SetEffect env (setObjectStorage env set) (setObjectStorage env set') removeAll := by
  unfold setObjectClear
  cases he : set.entries with
  | none =>
    have hs : setObjectStorage env set = setStorageNew env := by rw [setObjectStorage, he]; rfl
    exact ⟨set, rfl, hI, by rw [hs]; exact .of_data rfl rfl⟩
  | some s =>
    have hs := setObjectStorage_of_entries env he
    rw [hs] at hI ⊢
    obtain ⟨hinv, heff⟩ := setClearRows_spec hI
    obtain ⟨u, hu, hinv', hcomp⟩ := setCompactIfDue_spec hinv
    dsimp only
    rw [hu]
    exact ⟨⟨some u⟩, rfl, hinv', heff.compacted hcomp.effect⟩

theorem setObjectReserve_spec {desiredSize : ℕ} (hroom : ReserveRoom (setObjectStorage env set) desiredSize) :
    ∃ set', setObjectReserve env set desiredSize = some (set', true) ∧
      SetEffect env (setObjectStorage env set) (setObjectStorage env set') id := by
  have hlimit : desiredSize ≤ 2 ^ 30 := hroom.members.trans (by decide)
  obtain ⟨c, hc, -⟩ := collectionCapacity_spec desiredSize 8 hlimit (by decide) (by decide)
  obtain ⟨k, hk, hfits⟩ := collectionSlotCapacity_spec hroom.members
  have hrows := hroom.rows
  generalize hs : setObjectStorage env set = s at hI hrows ⊢
  have hsize : setObjectSize set = s.size := by
    rw [← hs, setObjectSize, setObjectStorage]
    cases set.entries <;> rfl
  unfold setObjectReserve setCapacity setSlotCapacity
  rw [hc, hk, hs]
  dsimp only
  split_ifs with hle hp
  · exact ⟨set, rfl, by rw [hs]; exact ⟨hI, .refl _ _⟩⟩
  · exact ⟨_, rfl, hI.counters _ _, .of_data rfl rfl⟩
  have hpn : s.payload ≠ none := by simpa using hp
  obtain ⟨c', hc', hge, h0, hlt⟩ := collectionCapacity_spec _ s.capacity hrows hI.capPos hI.capLt
  have hcap : s.count ≤ c' ∧ 0 < c' ∧ c' < 2 ^ 31 := ⟨by omega, h0, hlt⟩
  rw [hc']
  dsimp only
  generalize hu : (if c' > s.capacity then setReplacePayload env s s.domain c' else s) = u
  have hgrown : SetEffect env s u id ∧ u.payload ≠ none ∧ u.size = s.size := by
    rw [← hu]
    split_ifs
    · have hagree := setReplacePayload_agree hI.toRowsInv c' (fun i hi k hk => (hI.rows.keyOk i hi k hk).2) fun h _ => h
      exact ⟨⟨hagree.inv (hI.resize hpn hcap), .of_data hagree.data rfl⟩, by simp [setReplacePayload], rfl⟩
    · exact ⟨⟨hI, .refl _ _⟩, hpn, rfl⟩
  obtain ⟨⟨hinv, heff⟩, hpu, husize⟩ := hgrown
  split_ifs with hslots
  · have hfits' : hashIndexFits u.size (16 * 2 ^ k) = true := hashIndexFits_mono (by omega) hfits
    obtain ⟨index, hfill, hindexed⟩ := setFillSlots_spec hinv.toRowsInv env.freshSlots hfits'
    rw [setRehash, hfill]
    exact ⟨_, rfl, hinv.reindex hpu hindexed, heff.compacted (.of_data rfl rfl)⟩
  · exact ⟨_, rfl, hinv, heff⟩

theorem setObjectCompact_spec : ∃ set', setObjectCompact env set = some set' ∧
      SetEffect env (setObjectStorage env set) (setObjectStorage env set') id := by
  unfold setObjectCompact
  cases he : set.entries with
  | none => exact ⟨set, rfl, hI, .refl _ _⟩
  | some s =>
    have hs := setObjectStorage_of_entries env he
    rw [hs] at hI ⊢
    obtain ⟨t, ht, hinv, hcomp⟩ := setCompactIfDue_spec hI
    dsimp only
    rw [ht]
    exact ⟨⟨some t⟩, rfl, hinv, hcomp.effect⟩

theorem setStoragePin_spec (hp : (setObjectStorage env set).pins ≠ uint32Max) :
    ∃ set', setStoragePin set = some set' ∧ SetInv env (setObjectStorage env set') ∧
      setData env (setObjectStorage env set') = setData env (setObjectStorage env set) ∧
      (setObjectStorage env set').pins = (setObjectStorage env set).pins + set.entries.isSome.toNat := by
  unfold setStoragePin
  cases he : set.entries with
  | none => exact ⟨set, rfl, hI, rfl, rfl⟩
  | some s =>
    have hs := setObjectStorage_of_entries env he
    rw [hs] at hI hp ⊢
    dsimp only
    rw [if_neg hp]
    exact ⟨⟨some { s with pins := s.pins + 1 }⟩, rfl, hI.counters _ _, rfl, rfl⟩

/-- **Unpin.** The storage is still owned, so the last pin does not free it. -/
theorem setStorageUnpin_spec : ∃ set', setStorageUnpin set = some set' ∧ SetInv env (setObjectStorage env set') ∧
      setData env (setObjectStorage env set') = setData env (setObjectStorage env set) ∧
      (setObjectStorage env set').pins = (setObjectStorage env set).pins - 1 := by
  unfold setStorageUnpin
  cases he : set.entries with
  | none =>
    refine ⟨set, rfl, hI, rfl, ?_⟩
    rw [setObjectStorage, he]
    rfl
  | some s =>
    have hs := setObjectStorage_of_entries env he
    rw [hs] at hI ⊢
    have howned : s.ownerReleased = false := hI.owned
    dsimp only
    split_ifs with hz hfree
    · exact ⟨set, rfl, by rw [hs]; exact hI, by rw [hs], by rw [hs, hz]⟩
    · rw [howned] at hfree
      exact absurd hfree.2 (by simp)
    · exact ⟨⟨some { s with pins := s.pins - 1 }⟩, rfl, hI.counters _ _, rfl, rfl⟩

end

/-! ## Iteration -/

/-- **Cursor step.** A step over the rows is a step over the data. -/
theorem setIterNext_spec (env : KeyEnv) (s : MalSetStorage) (i : ℕ) :
    ((setIterNext (some s) i).1.map fun key => (env.den key, ()), (setIterNext (some s) i).2) = next (setData env s) i := by
  refine scan_eq_next (setIterScan s) (setRow s) (fun _ => rfl) (fun fuel i _ => ?_) _ i rfl
  rw [setIterScan, setRow]
  split_ifs <;> rfl

theorem setIterAll_spec (env : KeyEnv) (s : MalSetStorage) :
    (setIterAll (some s) (s.count + 1) 0).map (fun key => (env.den key, ())) = setContents env s := by
  have hlen : (setData env s).length = s.count := length_places _ _
  have hrest := all_eq_rest (setIterAll (some s)) (setIterNext_spec env s) (fun _ => rfl) fun fuel i => by
    rw [setIterAll]
    rcases setIterNext (some s) i with ⟨_ | member, j⟩ <;> rfl
  rw [hrest, rest_eq s.count 0 (by omega) _ (by omega), List.drop_zero, live_setData]

end Maligator.SetObject
