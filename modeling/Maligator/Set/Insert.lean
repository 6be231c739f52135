/-
Adding a member to a Set, up to its data: the list of places, live or empty, in order of position.

`setInsertHashed_spec`: growth of the payload and of the index leaves the rows in place, and the new row goes to the end.
`setObjectAddGeneral_spec`, `setObjectAddCanonical_spec`: both paths of an add write the member, in place or at the end.
-/
import Maligator.Set.Transform

namespace Maligator.SetObject

open HashIndex Function Option Rows LiveList KeyRows Collection

def setData (env : KeyEnv) (s : MalSetStorage) : List (Option (CollectionKey × Unit)) :=
  places (denoted env (setRow s)) s.count

theorem live_setData (env : KeyEnv) (s : MalSetStorage) : live (setData env s) = setContents env s := live_places _ _

theorem data_setStore (env : KeyEnv) (s : MalSetStorage) : (setStore s).data env = setData env s := by
  refine places_congr fun i _ => ?_
  rw [Store.entry, setStore, map_map]
  rfl

abbrev SetEffect (env : KeyEnv) (s t : MalSetStorage)
    (change : List (Option (CollectionKey × Unit)) → List (Option (CollectionKey × Unit))) : Prop :=
  SetInv env t ∧ Store.Effect env (setStore s) (setStore t) change

variable {env : KeyEnv} {s t : MalSetStorage} {key : MalValue}

/-! ## Adding a member -/

/-- the sizes an add needs stay below the limits of int32 capacities -/
structure SetRoom (s : MalSetStorage) : Prop where
  members : max s.reserveSize (s.size + 1) ≤ memberLimit
  rows : s.count + max 1 (s.reserveSize - s.size) ≤ 2 ^ 30

instance (s : MalSetStorage) : Decidable (SetRoom s) :=
  decidable_of_iff (_ ∧ _) ⟨fun h => ⟨h.1, h.2⟩, fun h => ⟨h.members, h.rows⟩⟩

theorem write_present (hI : SetInv env s) {i : ℕ} (hrow : (setStore s).HasAt env key i) :
    (setStore s).data env = write ((setStore s).data env) (env.den key) () := by
  obtain ⟨v, hv⟩ := Store.exists_row hrow
  rw [Store.data, write_of_row hI.nodup hrow.1 hv, ← hv, update_eq_self]

theorem setStore_insertInline (hp : s.payload = none) (hc : Canonical key) (d : MalSetKeyDomain) :
    setStore (setInsertInline s key d) = ({ setStore s with domain := d } : Store Unit).append key () := by
  have hrow : (setStore (setInsertInline s key d)).row = update (setStore s).row s.count (some (key, ())) := by
    funext j
    by_cases hj : j = s.count <;> simp [setStore, setRow, setIsLive, setKeyAt, setInsertInline, hp, hc.notEmpty, hj]
  exact congrArg (fun r => ({ setStore s with row := r, size := s.size + 1, count := s.count + 1, domain := d } :
    Store Unit)) hrow

theorem setGrowPayload_spec {env : SetEnv} (hI : SetInv env s) (hroom : SetRoom s) (key : MalValue) :
    ∃ t, setGrowPayload env s (joinDomain s.domain (insertDomain s.domain key)) = some t ∧
      (setStore s).Grown key (setStore t) := by
  obtain ⟨c, hc, hlt, hclt⟩ := hI.growCapacity hroom.rows (show 0 < 8 ∧ 8 < 2 ^ 31 by decide) s.payload.isNone
  have hfit : ∀ i < s.count, ∀ k, (setStore s).keys i = some k →
      Fits (joinDomain s.domain (insertDomain s.domain key)) k := fun i hi k hk =>
    fits_join (hI.rows.keyOk i hi k hk).2 (insertDomain_ne_empty _ _)
  have hpack : joinDomain s.domain (insertDomain s.domain key) = .int32 → s.payload ≠ none → s.domain = .int32 :=
    fun h hp => (of_joinDomain_eq_int32 h).resolve_left (hI.typed hp)
  change ∃ t, _ ∧ ∃ capacity, _ ∧ _ ∧ Store.Agree { setStore s with
    inline := False, capacity := capacity, domain := joinDomain s.domain (insertDomain s.domain key) } _
  generalize joinDomain s.domain (insertDomain s.domain key) = domain at hpack hfit ⊢
  have hget : setGrowPayload env s domain = some (if s.payload.isNone || c != s.capacity ||
      setRowWidth domain != setRowWidth s.domain then setReplacePayload env s domain c else { s with domain := domain }) :=
    congrArg (· >>= _) hc
  rw [hget]
  simp only [some.injEq, exists_eq_left']
  split_ifs with hcond
  · exact ⟨c, hlt, hclt, setReplacePayload_agree hI.toRowsInv c hfit hpack⟩
  -- same width and capacity: only the domain changes, and the rows are read the same way
  simp only [Bool.or_eq_true, bne_iff_ne, not_or, not_not] at hcond
  obtain ⟨⟨hsome, rfl⟩, hwidth⟩ := hcond
  have hd := setRowWidth_eq_iff.1 hwidth
  obtain ⟨p, hp⟩ := ne_none_iff_exists'.1 fun h : s.payload = none => by simp [h] at hsome
  refine ⟨s.capacity, hlt, hclt, (setStore { s with domain := domain }).row, fun i _ => ?_, by simp [setStore, hp]⟩
  refine congrArg (Option.map (·, ())) ?_
  by_cases hs : s.domain = .int32
  · simp [setRow, setIsLive, setKeyAt, hs, hd.2 hs]
  · simp [setRow, setIsLive, setKeyAt, hs, mt hd.1 hs]

theorem setGrowIndex_spec {env : SetEnv} (hI : (setStore s).RowsInv env)
    (hmembers : max s.reserveSize (s.size + 1) ≤ memberLimit) {known : Option ℕ}
    (hindex : s.index.capacity ≠ 0 → ∃ k, (setStore s).Indexed env k ∧
      ∀ b, known = some b → Holds.Vacant k s.index (keyHashValue env key) b) :
    ∃ t known' k, setGrowIndex env s known = some (t, known') ∧ (setStore t).Ready env key known' k ∧
      ∃ index deletedSlots, setStore t = { setStore s with index := index, deletedSlots := deletedSlots } := by
  have hm : (if s.reserveSize > s.size + 1 then s.reserveSize else s.size + 1) = max s.reserveSize (s.size + 1) := by
    rw [max_comm, max_def_lt]
  unfold setGrowIndex
  rw [hm]
  dsimp only
  split_ifs with hcond
  · -- rebuilt for the members alone, without tombstones
    obtain ⟨k, hk, hfits⟩ := collectionSlotCapacity_spec hmembers
    have hsize : hashIndexFits s.size (16 * 2 ^ k) = true := hashIndexFits_mono (by omega) hfits
    obtain ⟨index, hfill, hH⟩ := setFillSlots_spec hI env.freshSlots hsize
    refine ⟨_, none, k, ?_, Store.ready_of_rebuilt (le_max_right _ _) hH rfl hfits, index, 0, rfl⟩
    simp only [setSlotCapacity, hk, setRehash, hfill, bind_eq_bind, bind_some, pure_def]
  · simp only [Bool.or_eq_true, decide_eq_true_eq, Bool.not_eq_true', not_or, Bool.not_eq_false] at hcond
    obtain ⟨k, hk, hvac⟩ := hindex hcond.1
    exact ⟨s, known, k, rfl, Store.ready_of_fits (le_max_right _ _) hk hvac hcond.2, _, _, rfl⟩

theorem setStore_appendRow (hc : Canonical key) (hfit : Fits s.domain key) (b : ℕ) (hash : BitVec 64) :
    setStore (setAppendRow s key b hash) = { (setStore s).append key () with
      index := hashIndexInsert s.index b s.count hash
      deletedSlots := s.deletedSlots - (s.index.controls b == hashDeleted).toNat
      reserveSize := 0 } := by
  have hstore := setStore_storeKey s s.count (storable_of_fits hc hfit) hc.notEmpty
  exact congrArg (fun T : Store Unit => { T with
    count := s.count + 1
    deletedSlots := s.deletedSlots - (s.index.controls b == hashDeleted).toNat
    index := hashIndexInsert s.index b s.count hash
    reserveSize := 0
    size := s.size + 1 }) hstore

theorem setInsertHashed_spec {env : SetEnv} (hI : SetInv env s) (hroom : SetRoom s)
    (hc : Canonical key) (habs : (setStore s).Lacks env key) {known : Option ℕ}
    (hknown : (setStore s).KnownVacant env key known) :
    ∃ t, setInsertHashed env s key (joinDomain s.domain (insertDomain s.domain key)) known = some t ∧
      (setStore s).Appended env key () (setStore t) := by
  obtain ⟨g, hg, hgrown⟩ := setGrowPayload_spec hI hroom key
  obtain ⟨hprep, hmembers, hindex⟩ := hgrown.prepared hI hroom.members hknown
  obtain ⟨r, known', k, hr, hready, index, deletedSlots, hstore⟩ := setGrowIndex_spec hprep.inv hmembers hindex
  have hprep' : (setStore s).Prepared env key (setStore r) := hstore ▸ hprep.reindex index deletedSlots
  obtain ⟨b, hb, hready'⟩ := hready.slot (hprep'.lacks habs)
    (setFindSlot_spec hprep'.inv hprep'.spilled hready.indexed hc hprep'.fits)
  refine ⟨setAppendRow r key b (keyHashValue env key), ?_, ?_⟩
  · have hslot : setInsertSlot env r key (keyHashValue env key) known' = some b := by
      rw [← hb]
      cases known' <;> rfl
    simp only [setInsertHashed, hg, hr, hslot, bind_eq_bind, bind_some, pure_def]
  · rw [setStore_appendRow hc hprep'.fits]
    exact hprep'.append hready' ((le_max_right _ _).trans hroom.members) hc habs ()

/-! ## Both paths of an add -/

theorem setAddSlot_spec (hI : SetInv env s) (hc : Canonical key) :
    ∃ known, setAddSlot env s key (acceptsDomain s.domain (insertDomain s.domain key)) = some known ∧
      ((setAddPresent env s key (acceptsDomain s.domain (insertDomain s.domain key)) known = true ∧
          ∃ i, (setStore s).HasAt env key i) ∨
        (setAddPresent env s key (acceptsDomain s.domain (insertDomain s.domain key)) known = false ∧
          (setStore s).Lacks env key ∧ (setStore s).KnownVacant env key known)) := by
  by_cases hfit : Fits s.domain key
  · rw [accepts_insertDomain_iff.2 hfit]
    by_cases hp : s.payload = none
    · have hspec := setSmallFind_spec hI.toRowsInv hp hfit
      refine ⟨none, by simp [setAddSlot, hp], ?_⟩
      rw [setAddPresent, setSmallHas_eq]
      cases hfind : setSmallFind env s key with
      | none =>
        rw [hfind] at hspec
        exact .inr ⟨rfl, hspec, nofun⟩
      | some i =>
        rw [hfind] at hspec
        exact .inl ⟨rfl, i, hspec⟩
    · obtain ⟨k, hH⟩ := hI.hashed hp
      obtain ⟨b, hb, hout⟩ := setFindSlot_spec hI.toRowsInv hp hH hc hfit
      refine ⟨some b, by simp [setAddSlot, isSome_iff_ne_none.2 hp, hb], ?_⟩
      rcases hout with ⟨hl, hrow⟩ | ⟨hvac, habs⟩
      · exact .inl ⟨decide_eq_true hl, _, hrow⟩
      refine .inr ⟨decide_eq_false hvac.not_live, habs, fun b' hb' => ?_⟩
      cases hb'
      exact ⟨hp, k, hH, hvac⟩
  · -- the domain refuses the key, so no row can hold an equal one
    rw [Bool.eq_false_iff.2 (mt accepts_insertDomain_iff.1 hfit)]
    exact ⟨none, by simp [setAddSlot], .inr ⟨rfl, hI.rows.absent hfit, nofun⟩⟩

theorem setAddNew_spec {env : SetEnv} (hI : SetInv env s) (hroom : SetRoom s)
    (hc : Canonical key) (habs : (setStore s).Lacks env key) {known : Option ℕ}
    (hknown : (setStore s).KnownVacant env key known) :
    ∃ t, setAddNew env s key known = some t ∧ (setStore s).Appended env key () (setStore t) := by
  unfold setAddNew
  split_ifs with hinline
  · rw [Bool.and_eq_true, decide_eq_true_eq, isNone_iff_eq_none] at hinline
    have hlimit : s.size + 1 ≤ memberLimit := (le_max_right _ _).trans hroom.members
    refine ⟨_, rfl, ?_⟩
    rw [setStore_insertInline hinline.1 hc]
    exact hI.append_inline hinline.1 hinline.2 hlimit hc habs ()
  · exact setInsertHashed_spec hI hroom hc habs hknown

theorem setObjectStorage_of_entries (env : SetEnv) {set : MalSetObject} (he : set.entries = some s) :
    setObjectStorage env set = s := by
  rw [setObjectStorage, he]
  rfl

section

variable {env : SetEnv} {set : MalSetObject} (hI : SetInv env (setObjectStorage env set))
  (hroom : SetRoom (setObjectStorage env set)) (hc : Canonical key)
include hI hroom hc

theorem setObjectAddGeneral_spec : ∃ t, setObjectAddGeneral env set key = some ⟨some t⟩ ∧
      SetEffect env (setObjectStorage env set) t (write · (env.den key) ()) := by
  generalize hs : setObjectStorage env set = s at hI hroom
  obtain ⟨s₁, hs₁, hI₁, hcomp⟩ := setCompactIfDue_spec hI
  have hroom₁ : SetRoom s₁ := ⟨(hcomp.room hroom.members hroom.rows).1, (hcomp.room hroom.members hroom.rows).2⟩
  obtain ⟨known, hknown, hout⟩ := setAddSlot_spec hI₁ hc
  unfold setObjectAddGeneral
  simp only [hs, hs₁, hknown, bind_eq_bind, bind_some]
  rcases hout with ⟨hpres, i, hrow⟩ | ⟨hpres, habs, hvac⟩
  · rw [if_pos hpres]
    exact ⟨s₁, rfl, hI₁, hcomp.write hI.toRowsInv hI₁.toRowsInv (write_present hI₁ hrow) rfl⟩
  obtain ⟨t, ht, happ⟩ := setAddNew_spec hI₁ hroom₁ hc habs hvac
  rw [if_neg (by simp [hpres]), ht]
  exact ⟨t, rfl, happ.inv, hcomp.write hI.toRowsInv hI₁.toRowsInv (happ.data habs) happ.pins⟩

/-- **Add**: the leaf probe returns early when the member is there, and else the general path runs. -/
theorem setObjectAddCanonical_spec : ∃ t, setObjectAddCanonical env set key = some ⟨some t⟩ ∧
      SetEffect env (setObjectStorage env set) t (write · (env.den key) ()) := by
  have hgeneral := setObjectAddGeneral_spec hI hroom hc
  unfold setObjectAddCanonical setAddBits
  cases he : set.entries with
  | none => simpa [bind_eq_bind] using hgeneral
  | some s =>
    have hs := setObjectStorage_of_entries env he
    dsimp only
    split_ifs with hbits
    · rw [hs] at hI
      obtain ⟨found, hfound, hans⟩ := setProbeBits_spec hI hc hbits
      rw [hfound]
      cases found with
      | none => simpa [bind_eq_bind] using hgeneral
      | some b =>
        refine ⟨s, ?_, hI, by rw [hs]; exact .of_data (write_present hI hans.2.2) rfl⟩
        simp only [bind_eq_bind, bind_some, isSome_some, if_true, pure_def]
        rw [← he]
    · simpa [bind_eq_bind] using hgeneral

end

end Maligator.SetObject
