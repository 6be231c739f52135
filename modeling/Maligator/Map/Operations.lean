/-
The other operations of a Map, up to its data.

`mapObjectFindHinted_spec`: every search answers for the key, and only moves the hint.
`mapDeleteCanonical_spec`: deletion empties the place of the key and says whether there was one.
`mapObjectClear_spec`, `mapObjectReserve_spec`, `mapObjectCompact_spec`: clear empties every place; the others change none.
`mapIterAll_spec`: a cursor that runs undisturbed yields the contents.
-/
import Maligator.Map.Update

namespace Maligator.MapObject

open HashIndex Function Option Rows LiveList KeyRows Collection

/-! ## Searches -/

/-- the search answers in the storage it leaves behind, which differs in the hint only -/
structure Found (env : KeyEnv) (s t : MalMapStorage) (key : MalValue) (entry : ℕ) : Prop where
  inv : MapInv env t
  store : mapStore t = mapStore s
  answer : Answers env t key entry

variable {env : KeyEnv} {s : MalMapStorage} {key : MalValue} {map : MalMapObject}

theorem Found.effect {t : MalMapStorage} {entry : ℕ} (h : Found env s t key entry) : MapEffect env s t id :=
  ⟨h.inv, h.store ▸ .refl _ _⟩

theorem found_remember (hI : MapInv env s) {entry : ℕ} (hne : entry ≠ 0) (hrow : (mapStore s).HasAt env key (entry - 1)) :
    Found env s (mapStorageRememberEntry s entry) key entry := by
  obtain ⟨hlt, k, hk, -⟩ := id hrow
  obtain ⟨-, rfl⟩ := keys_eq_some.1 hk
  unfold mapStorageRememberEntry
  split_ifs with heq
  · exact ⟨hI, rfl, .inr ⟨hne, hrow⟩⟩
  refine ⟨⟨hI.toInv, hI.values, fun _ => ⟨?_, hk⟩⟩, rfl, .inr ⟨hne, hrow⟩⟩
  change entry - 1 < s.count at hlt
  change entry ≤ s.count
  omega

theorem mapStorageFindHinted_spec (hI : MapInv env s) (hc : Canonical key) :
    ∃ t entry, mapStorageFindHinted env (some s) key = some (some t, entry) ∧ Found env s t key entry := by
  unfold mapStorageFindHinted
  dsimp only
  split_ifs with hhint
  · exact ⟨s, _, rfl, hI, rfl, .inr ⟨hhint, mapStorageEntryHint_spec hI hhint⟩⟩
  obtain ⟨entry, he, hans⟩ := mapStorageFind_spec hI hc
  simp only [he, bind_eq_bind, bind_some, pure_def, map_some]
  rcases hans with ⟨rfl, habs⟩ | ⟨hne, hrow⟩
  · exact ⟨s, 0, by simp, hI, rfl, .inl ⟨rfl, habs⟩⟩
  · exact ⟨_, entry, by rw [if_pos hne], found_remember hI hne hrow⟩

/-- **Leaf search** of hashed int32 and identity storage: it skips the general hash, which the domain makes the same. -/
theorem mapStorageFindBits_spec (hI : MapInv env s) (hc : Canonical key) (hbits : mapStorageFindsBits s = true) :
    ∃ t entry, mapStorageFindBits env s key = some (t, entry) ∧ Found env s t key entry := by
  simp only [mapStorageFindsBits, Bool.and_eq_true, Bool.or_eq_true, decide_eq_true_eq] at hbits
  obtain ⟨hsome, hdom⟩ := hbits
  unfold mapStorageFindBits
  split_ifs with hhint
  · obtain ⟨hle, hk⟩ := hI.hint hhint.1
    exact ⟨s, _, rfl, hI, rfl, .inr ⟨hhint.1, by change _ < s.count; omega, _, hk, by rw [hhint.2]⟩⟩
  have hlookup := (mapQueryInDomain_spec hI.toRowsInv key).lookup (mapProbeBits env s key) fun intKey hf hint => by
    have hbit : valueIsString key = false ∧ valueIsBigint key = false := by
      refine bits_of_fits ?_ ?_ hf
      all_goals rcases hdom with h | h <;> simp [mapStore, h]
    have hprobe := mapProbeIn_spec hI hc (isSome_iff_ne_none.1 hsome) hf
      (n := if s.domain = .int32 then intKey else 0) (fun hd => by rw [if_pos hd, hint hd])
      (keyHashValue_of_bits env hbit.1 hbit.2).symm
    rcases hdom with h | h <;> simpa [h, mapProbeBits, probeDomain] using hprobe
  obtain ⟨found, hfound, hans⟩ := hlookup
  cases hquery : mapQueryInDomain s key with
  | none =>
    rw [hquery] at hfound
    cases hfound
    exact ⟨s, 0, rfl, hI, rfl, .inl ⟨rfl, hans⟩⟩
  | some intKey =>
    rw [hquery, elim_some] at hfound
    dsimp only
    rw [hfound]
    cases found with
    | none => exact ⟨s, 0, rfl, hI, rfl, .inl ⟨rfl, hans⟩⟩
    | some b => exact ⟨_, _, rfl, found_remember hI (Nat.succ_ne_zero _) hans.2.2⟩

/-! ## Deletion -/

theorem Written.emptySmall {t : MalMapStorage} {i : ℕ} {value : MalValue} (h : Written s t i key value) :
    Written s (mapEmptySmall t i) i (if s.payload = none then valueEmpty else key) value := by
  by_cases hp : t.payload = none
  · have heq : mapEmptySmall t i = { t with small := update t.small i valueEmpty } := by simp [mapEmptySmall, hp]
    rw [heq, if_pos (h.inline.1 hp)]
    refine ⟨fun j => ?_, h.values, h.inline,
      congrArg (fun u : MalMapStorage => { u with small := update t.small i valueEmpty }) h.rest⟩
    have hkey := h.keys j
    by_cases hj : j = i
    · simp [mapKeyAt, hp, hj]
    · simpa [mapKeyAt, hj] using hkey
  · obtain ⟨p, hp'⟩ := ne_none_iff_exists'.1 hp
    rw [show mapEmptySmall t i = t by simp [mapEmptySmall, hp'], if_neg (mt h.inline.2 hp)]
    exact h

/-- **Taking a row out** whose bucket is already released. The hint is dropped if it names the row. -/
theorem mapDeleteRow_spec (hv : ValuesOk s) (hh : HintOk s) (i : ℕ) : mapStore (mapDeleteRow s i) = (mapStore s).erase i ∧
    ValuesOk (mapDeleteRow s i) ∧ HintOk (mapDeleteRow s i) := by
  have hdrop : mapStore (mapDropHint s (i + 1)) = mapStore s ∧ ValuesOk (mapDropHint s (i + 1)) ∧
      ((mapDropHint s (i + 1)).entryHint ≠ 0 → s.entryHint ≠ i + 1 ∧ mapDropHint s (i + 1) = s) := by
    unfold mapDropHint
    split_ifs with h
    · exact ⟨rfl, hv, absurd rfl⟩
    · exact ⟨rfl, hv, fun _ => ⟨h, rfl⟩⟩
  rw [mapDeleteRow]
  generalize mapDropHint s (i + 1) = u at hdrop
  obtain ⟨hstore, hvu, hhint⟩ := hdrop
  have hwrite := ((Written.refl u i).emptySmall).setValue valueEmpty
  generalize mapSetValue (mapEmptySmall u i) i valueEmpty = t at hwrite
  have hkv : u.payload = none →
      ((if u.payload = none then valueEmpty else mapKeyAt u i) = valueEmpty ↔ valueEmpty = valueEmpty) := fun hp => by
    simp [hp]
  have herase := hwrite.store hkv
  rw [show mapRow u = mapRow s from congrArg Store.row hstore, hstore] at herase
  refine ⟨congrArg (fun T : Store MalValue => { T with size := T.size - 1 }) herase, hwrite.valuesOk hvu hkv, fun hne => ?_⟩
  have hkeys : (mapStore t).keys = update (mapStore s).keys i none := by
    rw [herase]
    exact Store.keys_update (mapStore s) i none
  change t.entryHint ≤ t.count ∧ (mapStore t).keys (t.entryHint - 1) = some t.hintKey
  rw [hkeys]
  rw [hwrite.rest] at hne ⊢
  obtain ⟨hni, rfl⟩ := hhint hne
  obtain ⟨hle, hk⟩ := hh hne
  exact ⟨hle, (update_of_ne (by change u.entryHint - 1 ≠ i; change u.entryHint ≠ 0 at hne; omega) _ _).trans hk⟩

/-! ## Clear -/

theorem mapClearRows_row (s : MalMapStorage) : ∀ i < s.count,
    (mapStore (mapClearRows s)).row i = none ∧ mapValueAt (mapClearRows s) i = valueEmpty := by
  intro i hi
  cases hp : s.payload with
  | none => simp [mapStore, mapRow, mapClearRows, hp, mapValueAt, mapIsLive, copyRows, hi]
  | some p =>
    by_cases hd : s.domain = .int32
    · simp [mapStore, mapRow, mapClearRows, hp, mapValueAt, mapIsLive, payloadValue, mapClearPayload, hd, copyRows, hi]
    · simp [mapStore, mapRow, mapClearRows, hp, mapValueAt, mapIsLive, payloadValue, mapClearPayload, hd, copyRows, hi]

theorem mapClearRows_spec (hI : MapInv env s) :
    MapEffect env s (mapClearRows { mapForgetHint s with size := 0 }) removeAll := by
  have hrow := mapClearRows_row { mapForgetHint s with size := 0 }
  have hinline : (mapClearRows { mapForgetHint s with size := 0 }).payload = none ↔ s.payload = none := by
    cases hp : s.payload <;> simp [mapClearRows, mapForgetHint, hp]
  have hsame : (mapClearRows { mapForgetHint s with size := 0 }).count = s.count ∧
      (mapClearRows { mapForgetHint s with size := 0 }).entryHint = 0 := by
    cases hp : s.payload <;> simp [mapClearRows, mapForgetHint, hp]
  obtain ⟨hinv, heff⟩ := hI.clear (fun i hi => (hrow i hi).1) hinline
    (by cases hp : s.payload <;> simp [mapStore, mapClearRows, mapForgetHint, hp])
  refine ⟨⟨hinv, fun i hi => ?_, fun h => absurd hsame.2 h⟩, heff⟩
  obtain ⟨hnone, hempty⟩ := hrow i (hsame.1 ▸ hi)
  rw [hempty]
  exact hnone

/-- the limits under which a reservation succeeds -/
structure ReserveRoom (s : MalMapStorage) (desiredSize : ℕ) : Prop where
  members : desiredSize ≤ memberLimit
  rows : s.count + desiredSize - s.size ≤ 2 ^ 30

theorem MapInv.counters (hI : MapInv env s) (pins reserveSize : ℕ) :
    MapInv env { s with pins := pins, reserveSize := reserveSize } :=
  ⟨hI.toInv.counters pins reserveSize, hI.values, hI.hint⟩

/-! ## Calls on the object -/

section

variable {env : MapEnv} (hI : MapInv env (mapObjectStorage env map))
include hI

theorem mapObjectFindHinted_spec (hc : Canonical key) :
    ∃ map' entry, mapObjectFindHinted env map key = some (map', entry) ∧
      Found env (mapObjectStorage env map) (mapObjectStorage env map') key entry ∧
      (map'.entries = none → entry = 0) := by
  unfold mapObjectFindHinted
  cases he : map.entries with
  | none =>
    have hs : mapObjectStorage env map = mapStorageNew env := by rw [mapObjectStorage, he]; rfl
    refine ⟨⟨none⟩, 0, rfl, ?_, fun _ => rfl⟩
    rw [hs]
    exact ⟨mapInv_storageNew env, rfl, .inl ⟨rfl, fun _ h => by cases h⟩⟩
  | some s =>
    have hs := mapObjectStorage_of_entries env he
    rw [hs] at hI ⊢
    dsimp only
    split_ifs with hbits
    · obtain ⟨t, entry, ht, hfound⟩ := mapStorageFindBits_spec hI hc hbits
      rw [ht]
      exact ⟨⟨some t⟩, entry, rfl, hfound, by simp⟩
    obtain ⟨t, entry, ht, hfound⟩ := mapStorageFindHinted_spec hI hc
    rw [ht]
    exact ⟨⟨some t⟩, entry, rfl, hfound, by simp⟩

theorem mapDeleteCanonical_spec (hc : Canonical key) : ∃ map', mapDeleteCanonical env map key =
        some (map', contains ((mapStore (mapObjectStorage env map)).contents env) (env.den key)) ∧
      MapEffect env (mapObjectStorage env map) (mapObjectStorage env map') (remove · (env.den key)) := by
  -- nothing changes when no row has the key
  have hmiss : (mapStore (mapObjectStorage env map)).Lacks env key → ∃ map', some (map, false) =
        some (map', contains ((mapStore (mapObjectStorage env map)).contents env) (env.den key)) ∧
      MapEffect env (mapObjectStorage env map) (mapObjectStorage env map') (remove · (env.den key)) :=
    fun habs => ⟨map, by rw [Store.contains_of_absent habs], hI, .remove_absent habs⟩
  unfold mapDeleteCanonical
  cases he : map.entries with
  | none =>
    refine hmiss ?_
    rw [mapObjectStorage, he]
    exact fun _ h => by cases h
  | some s =>
    have hs := mapObjectStorage_of_entries env he
    rw [hs] at hI hmiss ⊢
    dsimp only
    split_ifs with hz hp hentry
    · exact hmiss (absent_of_empty (hI.size.symm.trans hz))
    · rcases mapSmallFind_spec hI (isNone_iff_eq_none.1 hp) key with ⟨-, habs⟩ | ⟨hne, -⟩
      · exact hmiss habs
      · exact absurd hentry hne
    · rcases mapSmallFind_spec hI (isNone_iff_eq_none.1 hp) key with ⟨hzero, -⟩ | ⟨-, hrow⟩
      · exact absurd hzero hentry
      obtain ⟨hstore, hv, hh⟩ := mapDeleteRow_spec hI.values hI.hint (mapSmallFind env s key - 1)
      obtain ⟨hinv, heff⟩ := hI.toInv.erase hrow (isNone_iff_eq_none.1 hp)
      rw [← hstore] at hinv heff
      obtain ⟨u, hu, hinv', hcomp⟩ := mapCompactIfDue_spec ⟨hinv, hv, hh⟩
      rw [hu, Store.contains_of_rowOf hrow]
      exact ⟨⟨some u⟩, rfl, hinv', heff.compacted hcomp.effect⟩
    have hpn : s.payload ≠ none := by simpa using hp
    obtain ⟨found, hfound, hans⟩ := mapLookupSlot_spec hI hc hpn
    rw [hfound]
    cases found with
    | none => exact hmiss hans
    | some b =>
      obtain ⟨hb, hctrl, hrow⟩ := hans
      -- the released bucket changes no row
      obtain ⟨hstore, hv, hh⟩ := mapDeleteRow_spec (s := mapReleaseSlot s b) hI.values hI.hint (s.index.slots b)
      obtain ⟨hinv, heff⟩ := hI.toInv.release hpn hb hctrl hrow
      change mapStore _ = ((mapStore s).release b).erase ((mapStore s).index.slots b) at hstore
      rw [← hstore] at hinv heff
      obtain ⟨u, hu, hinv', hcomp⟩ := mapCompactIfDue_spec ⟨hinv, hv, hh⟩
      refine ⟨⟨some u⟩, ?_, hinv', heff.compacted hcomp.effect⟩
      rw [Store.contains_of_rowOf hrow]
      simp only [bind_eq_bind, bind_some, pure_def, hu]

theorem mapObjectClear_spec : ∃ map', mapObjectClear env map = some map' ∧
      MapEffect env (mapObjectStorage env map) (mapObjectStorage env map') removeAll := by
  unfold mapObjectClear
  cases he : map.entries with
  | none =>
    have hs : mapObjectStorage env map = mapStorageNew env := by rw [mapObjectStorage, he]; rfl
    exact ⟨map, rfl, hI, by rw [hs]; exact .of_data rfl rfl⟩
  | some s =>
    have hs := mapObjectStorage_of_entries env he
    rw [hs] at hI ⊢
    dsimp only
    split_ifs with hp
    · obtain ⟨t, ht, hinv, hcont, hpins, -⟩ := mapCompact_empty env (s := { mapForgetHint s with size := 0 })
        hp.1 rfl hI.owned
      rw [ht]
      exact ⟨⟨some t⟩, rfl, hinv, by rw [live_removeAll]; exact hcont, fun h => absurd hp.1 h, hpins.trans hp.1.symm⟩
    · exact ⟨⟨some _⟩, rfl, mapClearRows_spec hI⟩

theorem mapObjectReserve_spec {desiredSize : ℕ} (hroom : ReserveRoom (mapObjectStorage env map) desiredSize) :
    ∃ map', mapObjectReserve env map desiredSize = some (map', true) ∧
      MapEffect env (mapObjectStorage env map) (mapObjectStorage env map') id := by
  have hlimit : desiredSize ≤ 2 ^ 30 := hroom.members.trans (by decide)
  obtain ⟨c, hc, -⟩ := collectionCapacity_spec desiredSize 4 hlimit (by decide) (by decide)
  obtain ⟨k, hk, hfits⟩ := collectionSlotCapacity_spec hroom.members
  have hrows := hroom.rows
  generalize hs : mapObjectStorage env map = s at hI hrows ⊢
  have hsize : mapObjectSize map = s.size := by
    rw [← hs, mapObjectSize, mapObjectStorage]
    cases map.entries <;> rfl
  unfold mapObjectReserve mapCapacity mapSlotCapacity
  rw [hc, hk, hs]
  dsimp only
  split_ifs with hle hp
  · exact ⟨map, rfl, by rw [hs]; exact ⟨hI, .refl _ _⟩⟩
  · exact ⟨_, rfl, hI.counters _ _, .of_data rfl rfl⟩
  have hpn : s.payload ≠ none := by simpa using hp
  obtain ⟨c', hc', hge, h0, hlt⟩ := collectionCapacity_spec _ s.capacity hrows hI.capPos hI.capLt
  have hcap : s.count ≤ c' ∧ 0 < c' ∧ c' < 2 ^ 31 := ⟨by omega, h0, hlt⟩
  rw [hc']
  dsimp only
  generalize hu : (if c' > s.capacity then mapReplacePayload env s s.domain c' else s) = u
  have hgrown : MapEffect env s u id ∧ u.payload ≠ none ∧ u.size = s.size := by
    rw [← hu]
    split_ifs
    · have hagree := mapReplacePayload_agree hI.toRowsInv hI.values c' fun i hi k hk => (hI.rows.keyOk i hi k hk).2
      have hrows : ∀ i < s.count, mapRow (mapReplacePayload env s s.domain c') i = mapRow s i := by
        obtain ⟨r, hr, heq⟩ := hagree
        exact fun i hi => (congrFun (congrArg Store.row heq) i).trans (hr i hi)
      have hpay : (mapReplacePayload env s s.domain c').payload ≠ none := by simp [mapReplacePayload]
      exact ⟨⟨⟨hagree.inv (hI.toInv.resize hpn hcap), valuesOk_of_payload hpay, hI.hint.congr rfl rfl le_rfl hrows⟩,
        .of_data hagree.data rfl⟩, hpay, rfl⟩
    · exact ⟨⟨hI, .refl _ _⟩, hpn, rfl⟩
  obtain ⟨⟨hinv, heff⟩, hpu, husize⟩ := hgrown
  split_ifs with hslots
  · have hfits' : hashIndexFits u.size (16 * 2 ^ k) = true := hashIndexFits_mono (by omega) hfits
    obtain ⟨index, hfill, hindexed⟩ := mapFillSlots_spec hinv.toRowsInv env.freshSlots hfits'
    rw [mapRehash, hfill]
    exact ⟨_, rfl, ⟨hinv.toRowsInv.reindex hpu hindexed, hinv.values, hinv.hint⟩, heff.compacted (.of_data rfl rfl)⟩
  · exact ⟨_, rfl, hinv, heff⟩

theorem mapObjectCompact_spec : ∃ map', mapObjectCompact env map = some map' ∧
      MapEffect env (mapObjectStorage env map) (mapObjectStorage env map') id := by
  unfold mapObjectCompact
  cases he : map.entries with
  | none => exact ⟨map, rfl, hI, .refl _ _⟩
  | some s =>
    have hs := mapObjectStorage_of_entries env he
    rw [hs] at hI ⊢
    obtain ⟨t, ht, hinv, hcomp⟩ := mapCompactIfDue_spec hI
    dsimp only
    rw [ht]
    exact ⟨⟨some t⟩, rfl, hinv, hcomp.effect⟩

theorem mapStoragePin_spec (hp : (mapObjectStorage env map).pins ≠ uint32Max) :
    ∃ map', mapStoragePin map = some map' ∧ MapInv env (mapObjectStorage env map') ∧
      mapData env (mapObjectStorage env map') = mapData env (mapObjectStorage env map) ∧
      (mapObjectStorage env map').pins = (mapObjectStorage env map).pins + map.entries.isSome.toNat := by
  unfold mapStoragePin
  cases he : map.entries with
  | none => exact ⟨map, rfl, hI, rfl, rfl⟩
  | some s =>
    have hs := mapObjectStorage_of_entries env he
    rw [hs] at hI hp ⊢
    dsimp only
    rw [if_neg hp]
    exact ⟨⟨some { s with pins := s.pins + 1 }⟩, rfl, hI.counters _ _, rfl, rfl⟩

/-- **Unpin.** The storage is still owned, so the last pin does not free it. -/
theorem mapStorageUnpin_spec : ∃ map', mapStorageUnpin map = some map' ∧ MapInv env (mapObjectStorage env map') ∧
      mapData env (mapObjectStorage env map') = mapData env (mapObjectStorage env map) ∧
      (mapObjectStorage env map').pins = (mapObjectStorage env map).pins - 1 := by
  unfold mapStorageUnpin
  cases he : map.entries with
  | none =>
    refine ⟨map, rfl, hI, rfl, ?_⟩
    rw [mapObjectStorage, he]
    rfl
  | some s =>
    have hs := mapObjectStorage_of_entries env he
    rw [hs] at hI ⊢
    have howned : s.ownerReleased = false := hI.owned
    dsimp only
    split_ifs with hz hfree
    · exact ⟨map, rfl, by rw [hs]; exact hI, by rw [hs], by rw [hs, hz]⟩
    · rw [howned] at hfree
      exact absurd hfree.2 (by simp)
    · exact ⟨⟨some { s with pins := s.pins - 1 }⟩, rfl, hI.counters _ _, rfl, rfl⟩

end

/-! ## Iteration -/

/-- **Cursor step.** A step over the rows is a step over the data. -/
theorem mapIterNext_spec (hI : MapInv env s) (i : ℕ) :
    ((mapIterNext (some s) i).1.map fun p => (env.den p.1, p.2), (mapIterNext (some s) i).2) =
      next (mapData env s) i := by
  refine scan_eq_next (mapIterScan s) (mapRow s) (fun _ => rfl) (fun fuel i hi => ?_) _ i rfl
  rw [mapIterScan, hI.values i hi, liveRow]
  split_ifs <;> rfl

theorem mapIterAll_spec (hI : MapInv env s) :
    (mapIterAll (some s) (s.count + 1) 0).map (fun p => (env.den p.1, p.2)) = (mapStore s).contents env := by
  have hlen : (mapData env s).length = s.count := length_places _ _
  have hrest := all_eq_rest (mapIterAll (some s)) (mapIterNext_spec hI) (fun _ => rfl) fun fuel i => by
    rw [mapIterAll]
    rcases mapIterNext (some s) i with ⟨_ | row, j⟩ <;> rfl
  rw [hrest, rest_eq s.count 0 (by omega) _ (by omega), List.drop_zero, live_mapData]

end Maligator.MapObject
