/-
Insertion into Map storage: the payload grows and widens, the index grows or is rebuilt, and the row is appended.
-/
import Maligator.Map.Transform

namespace Maligator.MapObject

open HashIndex Function Option Rows KeyRows Collection

/-- what an insertion needs to stay within the int32 limits -/
structure MapRoom (s : MalMapStorage) : Prop where
  members : max s.reserveSize (s.size + 1) ≤ memberLimit
  rows : s.count + max 1 (s.reserveSize - s.size) ≤ 2 ^ 30

instance (s : MalMapStorage) : Decidable (MapRoom s) :=
  decidable_of_iff (_ ∧ _) ⟨fun h => ⟨h.1, h.2⟩, fun h => ⟨h.members, h.rows⟩⟩

variable {s t : MalMapStorage} {key : MalValue} {env : KeyEnv}

/-! ## Growth -/

theorem mapGrowPayload_spec {env : MapEnv} (hI : MapInv env s) (hroom : MapRoom s) (key : MalValue) :
    ∃ t, mapGrowPayload env s (joinDomain s.domain (insertDomain s.domain key)) = some t ∧
      (mapStore s).Grown key (mapStore t) ∧ t.entryHint = s.entryHint ∧ t.hintKey = s.hintKey := by
  obtain ⟨c, hc, hlt, hclt⟩ := hI.growCapacity hroom.rows (show 0 < 4 ∧ 4 < 2 ^ 31 by decide) s.payload.isNone
  have hfit : ∀ i < s.count, ∀ k, (mapStore s).keys i = some k →
      Fits (joinDomain s.domain (insertDomain s.domain key)) k := fun i hi k hk =>
    fits_join (hI.rows.keyOk i hi k hk).2 (insertDomain_ne_empty _ _)
  change ∃ t, _ ∧ (∃ capacity, _ ∧ _ ∧ Store.Agree { mapStore s with
    inline := False, capacity := capacity, domain := joinDomain s.domain (insertDomain s.domain key) } _) ∧ _
  generalize joinDomain s.domain (insertDomain s.domain key) = domain at hfit ⊢
  have hget : mapGrowPayload env s domain = some (if s.payload.isNone || c != s.capacity ||
      mapRowWidth domain != mapRowWidth s.domain then mapReplacePayload env s domain c else { s with domain := domain }) :=
    congrArg (· >>= _) hc
  rw [hget]
  simp only [some.injEq, exists_eq_left']
  split_ifs with hcond
  · exact ⟨⟨c, hlt, hclt, mapReplacePayload_agree hI.toRowsInv hI.values c hfit⟩, rfl, rfl⟩
  -- same width and capacity: only the domain changes, and the rows are read the same way
  simp only [Bool.or_eq_true, bne_iff_ne, not_or, not_not] at hcond
  obtain ⟨⟨hsome, rfl⟩, hwidth⟩ := hcond
  have hd := mapRowWidth_eq_iff.1 hwidth
  obtain ⟨p, hp⟩ := ne_none_iff_exists'.1 fun h : s.payload = none => by simp [h] at hsome
  refine ⟨⟨s.capacity, hlt, hclt, mapRow { s with domain := domain }, fun i _ => ?_, by simp [mapStore, hp]⟩, rfl, rfl⟩
  change mapRow { s with domain := domain } i = mapRow s i
  simp [mapRow, mapIsLive, mapKeyAt, mapValueAt, hp, payloadKey, payloadValue, hd]

theorem mapGrowIndex_spec {env : MapEnv} (hI : (mapStore s).RowsInv env)
    (hmembers : max s.reserveSize (s.size + 1) ≤ memberLimit) {known : Option ℕ}
    (hindex : s.index.capacity ≠ 0 → ∃ k, (mapStore s).Indexed env k ∧
      ∀ b, known = some b → Holds.Vacant k s.index (keyHashValue env key) b) :
    ∃ t known' k, mapGrowIndex env s known = some (t, known') ∧ (mapStore t).Ready env key known' k ∧
      ∃ index deletedSlots, t = { s with index := index, deletedSlots := deletedSlots } := by
  have hm : (if s.reserveSize > s.size + 1 then s.reserveSize else s.size + 1) = max s.reserveSize (s.size + 1) := by
    rw [max_comm, max_def_lt]
  unfold mapGrowIndex
  rw [hm]
  dsimp only
  split_ifs with hcond
  · -- rebuilt for the members alone, without tombstones
    obtain ⟨k, hk, hfits⟩ := collectionSlotCapacity_spec hmembers
    have hsize : hashIndexFits s.size (16 * 2 ^ k) = true := hashIndexFits_mono (by omega) hfits
    obtain ⟨index, hfill, hH⟩ := mapFillSlots_spec hI env.freshSlots hsize
    refine ⟨_, none, k, ?_, Store.ready_of_rebuilt (le_max_right _ _) hH rfl hfits, index, 0, rfl⟩
    simp only [mapSlotCapacity, hk, mapRehash, hfill, bind_eq_bind, bind_some, pure_def]
  · simp only [Bool.or_eq_true, decide_eq_true_eq, Bool.not_eq_true', not_or, Bool.not_eq_false] at hcond
    obtain ⟨k, hk, hvac⟩ := hindex hcond.1
    exact ⟨s, known, k, rfl, Store.ready_of_fits (le_max_right _ _) hk hvac hcond.2, _, _, rfl⟩

/-! ## Appending the row -/

structure RowAppended (env : KeyEnv) (s t : MalMapStorage) (key : MalValue) : Prop where
  store : (mapStore s).Appended env key valueUndefined (mapStore t)
  values : ValuesOk t
  entryHint : t.entryHint = s.entryHint
  hintKey : t.hintKey = s.hintKey

theorem RowAppended.inv (h : RowAppended env s t key) (hI : MapInv env s) : MapInv env t :=
  ⟨h.store.inv, h.values, hI.hint.congr h.entryHint h.hintKey ((Nat.le_succ _).trans h.store.count.ge) h.store.rows⟩

theorem written_append (hc : Canonical key) (hfit : Fits s.domain key) :
    Written s (mapSetValue (mapSetKey s s.count key) s.count valueUndefined) s.count key valueUndefined :=
  ((Written.refl s s.count).setKey (storable_of_fits hc hfit)).setValue valueUndefined

theorem mapStore_appendRow (hc : Canonical key) (hfit : Fits s.domain key) (b : ℕ) (hash : BitVec 64) :
    mapStore (mapAppendRow s key b hash) = { (mapStore s).append key valueUndefined with
      index := hashIndexInsert s.index b s.count hash
      deletedSlots := s.deletedSlots - (s.index.controls b == hashDeleted).toNat
      reserveSize := 0 } := by
  have hund : valueUndefined ≠ valueEmpty := by decide
  have hstore := (written_append hc hfit).store fun _ => iff_of_false hc.notEmpty hund
  exact congrArg (fun T : Store MalValue => { T with
    count := T.count + 1
    deletedSlots := T.deletedSlots - (T.index.controls b == hashDeleted).toNat
    index := hashIndexInsert T.index b s.count hash
    reserveSize := 0
    size := T.size + 1 }) hstore

theorem mapInsertHashed_spec {env : MapEnv} (hI : MapInv env s) (hroom : MapRoom s)
    (hc : Canonical key) (habs : (mapStore s).Lacks env key) {known : Option ℕ}
    (hknown : (mapStore s).KnownVacant env key known) :
    ∃ t, mapInsertHashed env s key (joinDomain s.domain (insertDomain s.domain key)) known = some t ∧
      RowAppended env s t key := by
  obtain ⟨g, hg, hgrown, hhint, hhintKey⟩ := mapGrowPayload_spec hI hroom key
  obtain ⟨hprep, hmembers, hindex⟩ := hgrown.prepared hI.toInv hroom.members hknown
  obtain ⟨r, known', k, hr, hready, index, deletedSlots, hrest⟩ := mapGrowIndex_spec hprep.inv hmembers hindex
  have hprep' : (mapStore s).Prepared env key (mapStore r) := hrest ▸ hprep.reindex index deletedSlots
  obtain ⟨b, hb, hready'⟩ := hready.slot (hprep'.lacks habs)
    (mapFindSlot_spec hprep'.inv hprep'.spilled hready.indexed hc hprep'.fits)
  have hwritten := written_append (s := r) hc hprep'.fits
  refine ⟨mapAppendRow r key b (keyHashValue env key), ?_, ?_, valuesOk_of_payload ?_, ?_, ?_⟩
  · have hslot : mapInsertSlot env r key (keyHashValue env key) known' = some b := by
      rw [← hb]
      cases known' <;> rfl
    simp only [mapInsertHashed, hg, hr, hslot, bind_eq_bind, bind_some, pure_def]
  · rw [mapStore_appendRow hc hprep'.fits]
    exact hprep'.append hready' ((le_max_right _ _).trans hroom.members) hc habs _
  · exact fun h => hprep'.spilled (hwritten.inline.1 h)
  · rw [← hhint]
    change (mapSetValue (mapSetKey r r.count key) r.count valueUndefined).entryHint = g.entryHint
    rw [hwritten.rest, hrest]
  · rw [← hhintKey]
    change (mapSetValue (mapSetKey r r.count key) r.count valueUndefined).hintKey = g.hintKey
    rw [hwritten.rest, hrest]

theorem mapInsertInline_spec (hI : MapInv env s) (hp : s.payload = none)
    (hroom : s.count < mapSmallCapacity) (hlimit : s.size + 1 ≤ memberLimit) (hc : Canonical key)
    (habs : (mapStore s).Lacks env key) :
    RowAppended env s (mapInsertInline s key (joinDomain s.domain (insertDomain s.domain key))) key := by
  have hund : valueUndefined ≠ valueEmpty := by decide
  have happ := hI.append_inline hp hroom hlimit hc habs valueUndefined
  change (mapStore s).Appended env key valueUndefined (({ mapStore s with
    domain := joinDomain s.domain (insertDomain s.domain key) } : Store MalValue).append key valueUndefined) at happ
  generalize joinDomain s.domain (insertDomain s.domain key) = d at happ ⊢
  have hrow : mapRow (mapInsertInline s key d) = update (mapRow s) s.count (some (key, valueUndefined)) := by
    funext j
    by_cases hj : j = s.count <;>
      simp [mapRow, mapIsLive, mapKeyAt, mapValueAt, mapInsertInline, hp, hc.notEmpty, hj]
  have hstore : mapStore (mapInsertInline s key d) =
      ({ mapStore s with domain := d } : Store MalValue).append key valueUndefined :=
    congrArg (fun r => ({ mapStore s with row := r, size := s.size + 1, count := s.count + 1, domain := d } :
      Store MalValue)) hrow
  refine ⟨hstore ▸ happ, fun i hi => ?_, rfl, rfl⟩
  rw [hrow]
  rcases Nat.lt_or_eq_of_le (Nat.lt_succ_iff.1 hi) with hlt | rfl
  · rw [update_of_ne hlt.ne, hI.values i hlt]
    simp [mapKeyAt, mapValueAt, mapInsertInline, hp, hlt.ne]
  · simp [mapKeyAt, mapValueAt, mapInsertInline, hp, liveRow, hund]

/-! ## Upsert -/

theorem mapUpsertSlot_spec (hI : MapInv env s) (hc : Canonical key) :
    ∃ known, mapUpsertSlot env s key (acceptsDomain s.domain (insertDomain s.domain key)) = some known ∧
      Answers env s key (mapUpsertExisting env s key (acceptsDomain s.domain (insertDomain s.domain key)) known) ∧
      (mapUpsertExisting env s key (acceptsDomain s.domain (insertDomain s.domain key)) known = 0 →
        (mapStore s).KnownVacant env key known) := by
  by_cases hfit : Fits s.domain key
  · rw [accepts_insertDomain_iff.2 hfit]
    by_cases hp : s.payload = none
    · exact ⟨none, by simp [mapUpsertSlot, hp], mapSmallFind_spec hI hp key, by simp [Store.KnownVacant]⟩
    obtain ⟨k, hH⟩ := hI.hashed hp
    obtain ⟨b, hb, hout⟩ := mapFindSlot_spec hI.toRowsInv hp hH hc hfit
    refine ⟨some b, by simp [mapUpsertSlot, isSome_iff_ne_none.2 hp, hb], ?_⟩
    rcases hout with ⟨hl, hrow⟩ | ⟨hvac, habs⟩
    · have he : mapUpsertExisting env s key true (some b) = s.index.slots b + 1 := if_pos (decide_eq_true hl)
      rw [he]
      exact ⟨.inr ⟨Nat.succ_ne_zero _, hrow⟩, fun h => absurd h (Nat.succ_ne_zero _)⟩
    have he : mapUpsertExisting env s key true (some b) = 0 := if_neg (mt of_decide_eq_true hvac.not_live)
    rw [he]
    refine ⟨.inl ⟨rfl, habs⟩, fun _ b' hb' => ⟨hp, k, hH, ?_⟩⟩
    cases hb'
    exact hvac
  · -- the domain refuses the key, so no row can hold an equal one
    rw [Bool.eq_false_iff.2 (mt accepts_insertDomain_iff.1 hfit)]
    exact ⟨none, by simp [mapUpsertSlot], .inl ⟨rfl, hI.rows.absent hfit⟩, by simp [Store.KnownVacant]⟩

theorem mapUpsertNew_spec {env : MapEnv} (hI : MapInv env s) (hroom : MapRoom s)
    (hc : Canonical key) (habs : (mapStore s).Lacks env key) {known : Option ℕ}
    (hknown : (mapStore s).KnownVacant env key known) :
    ∃ t, mapUpsertNew env s key known = some t ∧ RowAppended env s t key := by
  unfold mapUpsertNew
  split_ifs with hinline
  · rw [Bool.and_eq_true, decide_eq_true_eq, isNone_iff_eq_none] at hinline
    have hlimit : s.size + 1 ≤ memberLimit := (le_max_right _ _).trans hroom.members
    exact ⟨_, rfl, mapInsertInline_spec hI hinline.1 hinline.2 hlimit hc habs⟩
  · exact mapInsertHashed_spec hI hroom hc habs hknown

/-- **Upsert.** After the compaction that was due, the row of an equal key is returned, or a row is appended. -/
theorem mapUpsert_spec {env : MapEnv} (hI : MapInv env s) (hroom : MapRoom s) (hc : Canonical key) :
    ∃ s₁ t entry inserted, mapUpsert env s key = some (t, entry, inserted) ∧
      MapInv env s₁ ∧ Store.Compacted env (mapStore s) (mapStore s₁) ∧
      ((inserted = false ∧ t = s₁ ∧ entry ≠ 0 ∧ (mapStore s₁).HasAt env key (entry - 1)) ∨
        (inserted = true ∧ entry = s₁.count + 1 ∧ (mapStore s₁).Lacks env key ∧ RowAppended env s₁ t key)) := by
  obtain ⟨s₁, hs₁, hI₁, hcomp⟩ := mapCompactIfDue_spec hI
  have hroom₁ : MapRoom s₁ := ⟨(hcomp.room hroom.members hroom.rows).1, (hcomp.room hroom.members hroom.rows).2⟩
  obtain ⟨known, hknown, hans, hvac⟩ := mapUpsertSlot_spec hI₁ hc
  unfold mapUpsert
  simp only [hs₁, hknown, bind_eq_bind, bind_some]
  rcases hans with ⟨hzero, habs⟩ | ⟨hne, hrow⟩
  · obtain ⟨t, ht, happ⟩ := mapUpsertNew_spec hI₁ hroom₁ hc habs (hvac hzero)
    rw [if_neg (by simpa using hzero), ht]
    exact ⟨s₁, t, _, _, rfl, hI₁, hcomp, .inr ⟨rfl, rfl, habs, happ⟩⟩
  · rw [if_pos hne]
    exact ⟨s₁, s₁, _, false, rfl, hI₁, hcomp, .inl ⟨rfl, rfl, hne, hrow⟩⟩

end Maligator.MapObject
