/-
Minor collections and the young elements of an old array.

`CardInv`: everything young in the dense region is covered by the array's card. Every operation keeps it but one: a reverse
moves elements and leaves no card, so it keeps the invariant exactly when no young element lands below the frontier of a
partial card (`reverse_visited_iff`).
-/
import Maligator.Array.Cards

namespace Maligator.Array

open List Option Function

/-! ## Growing -/

theorem le_growTo (fuel capacity needed : ℕ) (h : needed ≤ capacity * 2 ^ fuel) :
    needed ≤ growTo fuel capacity needed := by
  induction fuel generalizing capacity needed with
  | zero => simpa [growTo] using h
  | succ fuel ih =>
    rw [growTo]
    split_ifs with hlt
    · exact ih _ _ (by rw [mul_assoc, ← pow_succ']; exact h)
    · omega

/-- the vector has room for the dense region, and a null vector has none -/
structure Room (array : MalArrayObject) : Prop where
  fits : array.denseCount ≤ array.capacity
  vector : array.elements = none → array.capacity = 0

structure Reserved (array array' : MalArrayObject) (needed : ℕ) : Prop where
  needed : needed ≤ array'.capacity
  capacity : array.capacity ≤ array'.capacity
  element : ∀ i < array.capacity, array'.element i = array.element i
  vector : array'.elements = none → array'.capacity = 0
  denseCount : array'.denseCount = array.denseCount
  length : array'.length = array.length
  dirty : array'.dirty = array.dirty
  minorScanStart : array'.minorScanStart = array.minorScanStart

variable {array : MalArrayObject} {array' : MalArrayObject} {needed : ℕ}

theorem reserveExact_spec (hr : Room array) (fresh : ℕ → MalValue) (needed : ℕ) :
    Reserved array (arrayObjectDenseReserveExact fresh array needed) needed := by
  unfold arrayObjectDenseReserveExact
  split_ifs with hle hinline
  · exact ⟨hle, le_rfl, fun _ _ => rfl, hr.vector, rfl, rfl, rfl, rfl⟩
  · rw [Bool.and_eq_true, isNone_iff_eq_none, decide_eq_true_eq] at hinline
    have hzero := hr.vector hinline.1
    exact ⟨hinline.2, hzero ▸ Nat.zero_le _, fun i hi => absurd hi (by omega), nofun, rfl, rfl, rfl, rfl⟩
  · exact ⟨le_rfl, (Nat.le_of_not_le hle : _), fun i hi => if_pos hi, nofun, rfl, rfl, rfl, rfl⟩

theorem reserve_spec (hr : Room array) (fresh : ℕ → MalValue) (needed : ℕ) :
    Reserved array (arrayObjectDenseReserve fresh array needed) needed := by
  unfold arrayObjectDenseReserve
  by_cases hle : needed ≤ array.capacity
  · rw [if_pos hle]
    exact ⟨hle, le_rfl, fun _ _ => rfl, hr.vector, rfl, rfl, rfl, rfl⟩
  rw [if_neg hle]
  obtain ⟨hneeded, hcap, hel, hvec, hcount, hlen, hdirty, hstart⟩ := reserveExact_spec hr fresh
    (growTo needed (if array.capacity = 0 then 4 else array.capacity) needed)
  refine ⟨(le_growTo _ _ _ ?_).trans hneeded, hcap, hel, hvec, hcount, hlen, hdirty, hstart⟩
  have hpos : 0 < (if array.capacity = 0 then 4 else array.capacity) := by split_ifs <;> omega
  exact Nat.lt_two_pow_self.le.trans (Nat.le_mul_of_pos_left _ hpos)

theorem isSome_of_capacity (hv : array.elements = none → array.capacity = 0) (hpos : 0 < array.capacity) :
    array.elements.isSome = true :=
  isSome_iff_ne_none.2 fun h => hpos.ne' (hv h)

theorem Reserved.isSome (h : Reserved array array' needed) (hpos : 0 < needed) : array'.elements.isSome = true :=
  isSome_of_capacity h.vector (hpos.trans_le h.needed)

theorem Reserved.room (h : Reserved array array' needed) (hr : Room array) : Room array' :=
  ⟨h.denseCount ▸ hr.fits.trans h.capacity, h.vector⟩

/-! ## The invariant -/

section Invariant

variable (immortal : ℕ → Bool) (owner : ℕ)

structure CardInv (st : CardState) : Prop where
  room : Room st.array
  covered : Covered immortal owner st st.array.denseCount fun _ => False

variable {immortal owner} {st : CardState}

theorem reserve_covered (hI : CardInv immortal owner st) (fresh : ℕ → MalValue) (needed n : ℕ) :
    Reserved st.array (st.reserve fresh needed).array needed ∧
      Covered immortal owner (st.reserve fresh needed) n fun i => st.array.denseCount ≤ i := by
  have hres := reserve_spec hI.room fresh needed
  refine ⟨hres, ?_⟩
  have hsame : Covered immortal owner (st.reserve fresh needed) st.array.denseCount fun _ => False :=
    hI.covered.same hres.dirty hres.minorScanStart rfl rfl fun i hi => hres.element i (hi.trans_le hI.room.fits)
  exact hsame.mono (fun i _ => Nat.lt_or_ge i _) fun _ => False.elim

theorem isSome_of_pos (hr : Room st.array) (hpos : 0 < st.array.denseCount) : st.array.elements.isSome = true :=
  isSome_of_capacity hr.vector (hpos.trans_le hr.fits)

variable {st' : CardState}

variable {n i m index : ℕ} {P : ℕ → Prop} {values : List MalValue}

theorem CardInv.of_covered (h : Covered immortal owner st' n P)
    (hP : ∀ i < n, ¬ P i) (hroom : Room st'.array) (hcount : st'.array.denseCount = n) : CardInv immortal owner st' := by
  refine ⟨hroom, ?_⟩
  rw [hcount]
  exact h.drop fun i hi _ hPi => hP i hi hPi

theorem Frame.room (h : Frame st st') (hr : Room st.array) : Room st'.array :=
  ⟨by rw [h.denseCount, h.capacity]; exact hr.fits, fun he => by rw [h.capacity]; exact hr.vector (h.elements ▸ he)⟩

theorem room_of_isSome (hfits : array.denseCount ≤ array.capacity)
    (hsome : array.elements.isSome = true) : Room array :=
  ⟨hfits, fun h => by simp [h] at hsome⟩

theorem isSome_mapElements (hsome : array.elements.isSome = true)
    (f : (ℕ → MalValue) → ℕ → MalValue) : (array.mapElements f).elements.isSome = true :=
  isSome_map.trans hsome

theorem element_mapElements (hsome : array.elements.isSome = true)
    (f : (ℕ → MalValue) → ℕ → MalValue) (i : ℕ) : (array.mapElements f).element i = f array.element i := by
  obtain ⟨elements, helements⟩ := isSome_iff_exists.1 hsome
  have : array.element = elements := by
    funext j
    rw [MalArrayObject.element, helements]
    rfl
  rw [this, MalArrayObject.mapElements, helements]
  rfl

theorem element_mapElements_of_eq {f : (ℕ → MalValue) → ℕ → MalValue}
    (h : ∀ elements, f elements i = elements i) : (array.mapElements f).element i = array.element i := by
  unfold MalArrayObject.element MalArrayObject.mapElements
  cases array.elements with
  | none => rfl
  | some elements => exact h elements

theorem room_mapElements (hr : Room array) (f : (ℕ → MalValue) → ℕ → MalValue) : Room (array.mapElements f) :=
  ⟨hr.fits, fun h => hr.vector (map_eq_none_iff.1 h)⟩

theorem not_young_hole (old : ℕ → Bool) : ¬ young immortal old valueArrayHole = true := by
  intro h
  exact absurd (young_heap h).1 (by decide)

theorem Covered.anything (h : Covered immortal owner st n P)
    (hd : st'.array.dirty = st.array.dirty) (hs : st'.array.minorScanStart = st.array.minorScanStart)
    (hr : st'.remembered = st.remembered) (ho : st'.old = st.old) : Covered immortal owner st' m fun _ => True :=
  (h.change (Q := fun _ => True) hd hs hr ho fun _ _ => .inl trivial).mono (fun _ _ => .inr trivial) fun _ _ => trivial

theorem cardRange_inv (h : Covered immortal owner st m fun _ => True) (hroom : Room st.array)
    (hn : st.array.denseCount = n) : CardInv immortal owner (arrayObjectDenseCardRange owner st 0 n) := by
  have hframe := arrayObjectDenseCardRange_frame owner st 0 n
  have hall : Covered immortal owner st n fun _ => True := h.mono (fun _ _ => .inr trivial) fun _ _ => trivial
  exact .of_covered (arrayObjectDenseCardRange_covered hall 0 n) (fun i hi hP => hP.2 ⟨Nat.zero_le i, hi⟩)
    (hframe.room hroom) (hframe.denseCount.trans hn)

/-! ## Stores and appends -/

theorem storeCard_inv (length : ℕ) (hcov : Covered immortal owner st n fun i => index = i)
    (hsome : st.array.elements.isSome = true) (hfits : n ≤ st.array.capacity) (value : MalValue) :
    CardInv immortal owner (arrayObjectCard owner
      { st.write index value with array := { (st.write index value).array with denseCount := n, length := length } }
      index value) := by
  have hstored := write_covered hcov hsome index value
  set grown : CardState :=
    { st.write index value with array := { (st.write index value).array with denseCount := n, length := length } }
  have hgrown : Covered immortal owner grown n fun i => index = i ∨ i = index :=
    hstored.same rfl rfl rfl rfl fun _ _ => rfl
  have hcard := arrayObjectCard_covered hgrown ((element_write hsome index).trans (if_pos rfl))
  have hframe := arrayObjectCard_frame owner grown index value
  refine .of_covered hcard (fun i _ hP => ?_) (hframe.room (room_of_isSome hfits (isSome_mapElements hsome _)))
    hframe.denseCount
  exact hP.1.elim (fun h => hP.2 h.symm) hP.2

section

variable (hI : CardInv immortal owner st) (fresh : ℕ → MalValue) (index : ℕ) (value : MalValue)
include hI

theorem overwrite_inv {index : ℕ} (hi : index < st.array.denseCount) (value : MalValue) :
    CardInv immortal owner (arrayObjectCard owner (st.write index value) index value) :=
  storeCard_inv st.array.length (hI.covered.mono (fun _ => Or.inl) fun _ => False.elim)
    (isSome_of_pos hI.room (by omega)) hI.room.fits value

theorem arrayObjectDenseStoreGeneral_inv
    (h : arrayObjectDenseStoreGeneral owner fresh st index value = some st') : CardInv immortal owner st' := by
  unfold arrayObjectDenseStoreGeneral at h
  split_ifs at h with hin hgap
  · rw [Bool.and_eq_true, decide_eq_true_eq] at hin
    rw [← some.inj h]
    exact overwrite_inv hI hin.2 value
  obtain ⟨hres, hcov⟩ := reserve_covered hI fresh (index + 1) (index + 1)
  have hsome := hres.isSome (Nat.succ_pos index)
  -- the gap is filled with holes, which are not young
  have hholes : Covered immortal owner { st.reserve fresh (index + 1) with
      array := (st.reserve fresh (index + 1)).array.mapElements fun elements i =>
        if (st.reserve fresh (index + 1)).array.denseCount ≤ i ∧ i < index then valueArrayHole else elements i }
      (index + 1) fun i => st.array.denseCount ≤ i ∨ (st.array.denseCount ≤ i ∧ i < index) := by
    refine hcov.change rfl rfl rfl rfl fun i _ => ?_
    rw [element_mapElements hsome, hres.denseCount]
    by_cases hi : st.array.denseCount ≤ i ∧ i < index
    · exact .inl hi
    · exact .inr (if_neg hi)
  rw [← some.inj h]
  refine storeCard_inv (st.reserve fresh (index + 1)).array.length (hholes.drop fun i hi hy hP => ?_)
    (isSome_mapElements hsome _) hres.needed value
  rw [element_mapElements hsome, hres.denseCount] at hy
  by_contra hne
  rw [if_pos (by omega)] at hy
  exact not_young_hole _ hy

theorem arrayObjectDenseStore_inv (h : arrayObjectDenseStore owner fresh st index value = some st') :
    CardInv immortal owner st' := by
  unfold arrayObjectDenseStore at h
  split_ifs at h with hin happend
  · rw [Bool.and_eq_true, decide_eq_true_eq] at hin
    rw [← some.inj h]
    exact overwrite_inv hI hin.2 value
  · simp only [Bool.and_eq_true, decide_eq_true_eq] at happend
    obtain ⟨⟨hindex, hcap⟩, hsome⟩ := happend
    rw [← some.inj h]
    exact storeCard_inv st.array.length (hI.covered.mono (fun i hi => by omega) fun _ => False.elim) hsome hcap value
  · exact arrayObjectDenseStoreGeneral_inv hI fresh index value h

end

theorem appendOne_inv {start : ℕ} (hstart : st.array.denseCount = start)
    (hcov : Covered immortal owner st (start + 1) fun i => start ≤ i) (hsome : st.array.elements.isSome = true)
    (hfits : start < st.array.capacity) (value : MalValue) : CardInv immortal owner (appendOne owner st value) := by
  subst hstart
  exact storeCard_inv (st.array.denseCount + 1) (hcov.drop fun i hi _ hP => by omega) hsome hfits value

theorem arrayObjectFreshDenseAppend_inv (hI : CardInv immortal owner st) (fresh : ℕ → MalValue) (value : MalValue)
    (h : arrayObjectFreshDenseAppend owner fresh st value = some st') : CardInv immortal owner st' := by
  unfold arrayObjectFreshDenseAppend at h
  split_ifs at h
  obtain ⟨hres, hcov⟩ := reserve_covered hI fresh (st.array.denseCount + 1) (st.array.denseCount + 1)
  rw [← some.inj h]
  exact appendOne_inv hres.denseCount hcov (hres.isSome (Nat.succ_pos _)) hres.needed value

theorem arrayObjectFreshDenseAppendReserved_inv (hI : CardInv immortal owner st)
    (hcap : st.array.denseCount < st.array.capacity) (value : MalValue) :
    CardInv immortal owner (arrayObjectFreshDenseAppendReserved owner st value) :=
  appendOne_inv rfl (hI.covered.mono (fun i _ => Nat.lt_or_ge i _) fun _ => False.elim)
    (isSome_of_capacity hI.room.vector (Nat.zero_lt_of_lt hcap)) hcap value

theorem publish_inv {card : CardState → ℕ → MalValue → CardState} (hcard : CardsIndex immortal owner card) {start : ℕ}
    (hcov : Covered immortal owner st (start + values.length) fun i => start ≤ i)
    (hfits : start + values.length ≤ st.array.capacity) (hvector : st.array.elements = none → st.array.capacity = 0)
    (length : ℕ) : CardInv immortal owner { publishValues card st start values with
      array := { (publishValues card st start values).array with
        denseCount := start + values.length, length := length } } := by
  have hpub : Covered immortal owner (publishValues card st start values) (start + values.length) fun _ => False := by
    cases values with
    | nil => exact hcov.drop fun i hi _ hP => by simp at hi; omega
    | cons value values =>
      have hsome := isSome_of_capacity hvector (by rw [length_cons] at hfits; omega)
      exact (publishValues_covered hcard _ st start _ hcov hsome).drop fun i hi _ hP => hP.2 ⟨hP.1, hi⟩
  obtain ⟨hcapacity, hisSome⟩ := publishValues_frame hcard values st start
  refine ⟨⟨by rw [hcapacity]; exact hfits, fun he => ?_⟩, hpub.same rfl rfl rfl rfl fun _ _ => rfl⟩
  have hnone : st.array.elements = none := by
    rw [← isNone_iff_eq_none, ← not_isSome, ← hisSome]
    simpa using he
  exact hcapacity.trans (hvector hnone)

section

variable (hI : CardInv immortal owner st)
include hI

theorem appendAll_inv (hlength : st.array.denseCount = st.array.length) (fresh : ℕ → MalValue) (values : List MalValue)
    : CardInv immortal owner (appendAll owner fresh st values) := by
  obtain ⟨hres, hcov⟩ := reserve_covered hI fresh (st.array.length + values.length) (st.array.length + values.length)
  exact publish_inv (cardsIndex_indexed immortal owner) (hlength ▸ hcov) hres.needed hres.vector _

theorem arrayObjectDenseAppendMany_inv (fresh : ℕ → MalValue) (values : List MalValue)
    (h : arrayObjectDenseAppendMany owner fresh st values = some st') : CardInv immortal owner st' := by
  unfold arrayObjectDenseAppendMany at h
  dsimp only at h
  split_ifs at h with hrefused hnone
  · exact some.inj h ▸ hI
  · simp only [Bool.or_eq_true, decide_eq_true_eq, not_or, not_not] at hrefused
    exact some.inj h ▸ appendAll_inv hI hrefused.1.1.2 fresh values

theorem arrayObjectContainedDensePush_inv (hlength : st.array.denseCount = st.array.length) (fresh : ℕ → MalValue)
    (values : List MalValue) (h : arrayObjectContainedDensePush owner fresh st values = some st')
    : CardInv immortal owner st' := by
  unfold arrayObjectContainedDensePush at h
  split_ifs at h
  · exact some.inj h ▸ hI
  · exact some.inj h ▸ appendAll_inv hI hlength fresh values

theorem shorten_inv {denseCount : ℕ} (hle : denseCount ≤ st.array.denseCount) (length : ℕ) :
    CardInv immortal owner { st with array := { st.array with denseCount := denseCount, length := length } } := by
  refine ⟨⟨hle.trans hI.room.fits, hI.room.vector⟩, ?_⟩
  exact (hI.covered.mono (fun i hi => .inl (lt_of_lt_of_le hi hle)) fun _ => id).same rfl rfl rfl rfl fun _ _ => rfl

theorem arrayObjectContainedDensePop_inv (hlength : st.array.denseCount = st.array.length) {value : MalValue}
    (h : arrayObjectContainedDensePop st = some (st', value)) : CardInv immortal owner st' := by
  unfold arrayObjectContainedDensePop at h
  split_ifs at h
  obtain ⟨rfl, -⟩ := Prod.mk.inj (some.inj h)
  exact shorten_inv hI (by omega) _

end

/-! ## Builders -/

theorem buildPrepare_spec {fresh : ℕ → MalValue} {start count : ℕ}
    (h : arrayObjectDenseBuildPrepare fresh st start count = some st') :
    st.array.denseCount = start ∧ st' = st.reserve fresh (start + count) := by
  unfold arrayObjectDenseBuildPrepare at h
  split_ifs at h with hrefused
  simp only [Bool.or_eq_true, decide_eq_true_eq, not_or, not_not] at hrefused
  exact ⟨hrefused.1.2, (some.inj h).symm⟩

theorem buildPublish_inv (hI : CardInv immortal owner st) (fresh : ℕ → MalValue) {start : ℕ}
    {prepared : CardState} (h : arrayObjectDenseBuildPrepare fresh st start values.length = some prepared) :
    CardInv immortal owner (buildFinish (publishValues (fun st _ value => gcCard owner st value) prepared start values)
      (start + values.length)) := by
  obtain ⟨rfl, rfl⟩ := buildPrepare_spec h
  obtain ⟨hres, hcov⟩ :=
    reserve_covered hI fresh (st.array.denseCount + values.length) (st.array.denseCount + values.length)
  exact publish_inv (cardsIndex_plain immortal owner) hcov hres.needed hres.vector _

theorem arrayObjectDenseBuildValues_inv (hI : CardInv immortal owner st) (fresh : ℕ → MalValue) (start : ℕ)
    (values : List MalValue) (h : arrayObjectDenseBuildValues owner fresh st start values = some st') :
    CardInv immortal owner st' := by
  obtain ⟨prepared, hprep, rfl⟩ := map_eq_some_iff.1 h
  exact buildPublish_inv hI fresh hprep

theorem length_rangeValues (source : MalArrayObject) (sourceStart count : ℕ) (reverse holesAsUndefined : Bool) :
    (rangeValues source sourceStart count reverse holesAsUndefined).length = count := by
  rw [rangeValues, length_map, length_range]

theorem arrayObjectDenseBuildRange_inv (hI : CardInv immortal owner st) (fresh : ℕ → MalValue) (start : ℕ)
    (source : MalArrayObject) (sourceStart count : ℕ) (reverse holesAsUndefined : Bool)
    (h : arrayObjectDenseBuildRange owner fresh st start source sourceStart count reverse holesAsUndefined = some st') :
    CardInv immortal owner st' := by
  unfold arrayObjectDenseBuildRange at h
  split_ifs at h
  obtain ⟨prepared, hprep, rfl⟩ := map_eq_some_iff.1 h
  have hlen := length_rangeValues source sourceStart count reverse holesAsUndefined
  have hbuilt := buildPublish_inv hI fresh (hlen.symm ▸ hprep)
  rwa [hlen] at hbuilt

theorem arrayObjectDenseFill_covered (hcov : Covered immortal owner st n P) (start stop : ℕ)
    (value : MalValue) (hsome : 0 < n → st.array.elements.isSome = true) :
    Covered immortal owner (arrayObjectDenseFill owner st start stop value) n
      fun i => P i ∧ ¬ (start ≤ i ∧ i < stop) := by
  unfold arrayObjectDenseFill
  split_ifs with hlt
  · have hel := fun i (hi : i < n) => element_mapElements (hsome (by omega))
      (fun elements i => if start ≤ i ∧ i < stop then value else elements i) i
    have hchanged : Covered immortal owner { st with array := st.array.mapElements fun elements i =>
        if start ≤ i ∧ i < stop then value else elements i } n fun i => P i ∨ (start ≤ i ∧ i < stop) := by
      refine hcov.change rfl rfl rfl rfl fun i hn => ?_
      by_cases hi : start ≤ i ∧ i < stop
      · exact .inl hi
      · exact .inr ((hel i hn).trans (if_neg hi))
    refine (gcCard_covered hchanged value).drop ?_
    rintro i hn - ⟨hP, hne⟩
    have hout : ¬ (start ≤ i ∧ i < stop) := fun hi => hne ((hel i hn).trans (if_pos hi))
    exact ⟨hP.resolve_right hout, hout⟩
  · have hout : ∀ i, ¬ (start ≤ i ∧ i < stop) := fun i => by omega
    refine Covered.drop (P := P) ?_ fun i _ _ hP => ⟨hP, hout i⟩
    refine hcov.same rfl rfl rfl rfl fun i _ => ?_
    exact element_mapElements_of_eq fun elements => if_neg (hout i)

theorem arrayObjectDenseFill_frame (owner : ℕ) (st : CardState) (start stop : ℕ) (value : MalValue) :
    Frame { st with array := st.array.mapElements fun elements i => if start ≤ i ∧ i < stop then value else elements i }
      (arrayObjectDenseFill owner st start stop value) := by
  unfold arrayObjectDenseFill
  split_ifs
  · exact gcCard_frame owner _ value
  · exact Frame.refl _

theorem arrayObjectDenseFill_inv (hI : CardInv immortal owner st) (start stop : ℕ) (value : MalValue) :
    CardInv immortal owner (arrayObjectDenseFill owner st start stop value) := by
  have hframe := arrayObjectDenseFill_frame owner st start stop value
  have hcov := arrayObjectDenseFill_covered hI.covered start stop value (isSome_of_pos hI.room)
  exact .of_covered hcov (fun _ _ hP => hP.1) (hframe.room (room_mapElements hI.room _)) hframe.denseCount

theorem arrayObjectDenseBuildFill_inv (hI : CardInv immortal owner st) (fresh : ℕ → MalValue) (start count : ℕ)
    (value : MalValue) (h : arrayObjectDenseBuildFill owner fresh st start count value = some st') :
    CardInv immortal owner st' := by
  obtain ⟨prepared, hprep, rfl⟩ := map_eq_some_iff.1 h
  obtain ⟨rfl, rfl⟩ := buildPrepare_spec hprep
  obtain ⟨hres, hcov⟩ := reserve_covered hI fresh (st.array.denseCount + count) (st.array.denseCount + count)
  have hfilled := arrayObjectDenseFill_covered hcov st.array.denseCount (st.array.denseCount + count) value
    fun hlt => hres.isSome (by omega)
  have hframe := arrayObjectDenseFill_frame owner (st.reserve fresh (st.array.denseCount + count)) st.array.denseCount
    (st.array.denseCount + count) value
  have hroom := hframe.room (room_mapElements (hres.room hI.room) _)
  unfold arrayObjectDenseFill at hfilled hframe hroom
  simp only [lt_add_iff_pos_right] at hfilled hframe hroom
  refine .of_covered (hfilled.same rfl rfl rfl rfl fun _ _ => rfl) (fun i hi hP => hP.2 ⟨hP.1, hi⟩)
    ⟨?_, hroom.vector⟩ rfl
  exact (hframe.capacity.symm ▸ hres.needed :)

/-! ## Moves -/

section

variable (hI : CardInv immortal owner st)
include hI

theorem arrayObjectDenseShift_inv : CardInv immortal owner (arrayObjectDenseShift owner st) := by
  unfold arrayObjectDenseShift
  dsimp only
  by_cases hpos : st.array.denseCount > 0
  · rw [if_pos hpos]
    refine shorten_inv (cardRange_inv (m := 0) ?_ ?_ rfl) le_rfl _
    · exact hI.covered.anything rfl rfl rfl rfl
    · exact ⟨(Nat.sub_le _ _).trans hI.room.fits, (room_mapElements hI.room _).vector⟩
  · rw [if_neg hpos]
    exact shorten_inv hI le_rfl _

theorem arrayObjectDenseUnshiftMany_inv (fresh : ℕ → MalValue) (values : List MalValue)
    (h : arrayObjectDenseUnshiftMany owner fresh st values = some st') : CardInv immortal owner st' := by
  unfold arrayObjectDenseUnshiftMany at h
  dsimp only at h
  split_ifs at h
  · exact some.inj h ▸ hI
  obtain ⟨hres, hcov⟩ := reserve_covered hI fresh (st.array.denseCount + values.length) 0
  rw [← some.inj h]
  refine cardRange_inv (m := 0) ?_ ⟨hres.needed, (room_mapElements (hres.room hI.room) _).vector⟩ rfl
  exact hcov.anything rfl rfl rfl rfl

theorem arrayObjectDenseSplice_inv (fresh : ℕ → MalValue) (start deleteCount : ℕ) (values : List MalValue)
    (h : arrayObjectDenseSplice owner fresh st start deleteCount values = some st') : CardInv immortal owner st' := by
  unfold arrayObjectDenseSplice at h
  by_cases hrefused : deleteCount > st.array.length - start ∨
      values.length > uint32Max - (st.array.length - deleteCount)
  · rw [if_pos hrefused] at h
    cases h
  rw [if_neg hrefused] at h
  obtain ⟨hres, hcov⟩ := reserve_covered hI fresh (st.array.length - deleteCount + values.length) 0
  rw [← some.inj h]
  refine cardRange_inv (m := 0) ?_ ⟨hres.needed, (room_mapElements (hres.room hI.room) _).vector⟩ rfl
  exact hcov.anything rfl rfl rfl rfl

theorem arrayObjectDenseCopyWithin_inv (target start count : ℕ) :
    CardInv immortal owner (arrayObjectDenseCopyWithin owner st target start count) := by
  unfold arrayObjectDenseCopyWithin
  split_ifs
  · exact hI
  have hmoved : Covered immortal owner
      { st with array := st.array.mapElements fun elements => memmove elements target start count }
      st.array.denseCount fun i => False ∨ (target ≤ i ∧ i < target + count) := by
    refine hI.covered.change rfl rfl rfl rfl fun i _ => ?_
    by_cases hi : target ≤ i ∧ i < target + count
    · exact .inl hi
    · exact .inr (element_mapElements_of_eq fun elements => if_neg hi)
  have hframe := arrayObjectDenseCardRange_frame owner
    { st with array := st.array.mapElements fun elements => memmove elements target start count } target
    (target + count)
  exact .of_covered (arrayObjectDenseCardRange_covered hmoved target (target + count))
    (fun i _ hP => hP.1.elim id hP.2) (hframe.room (room_mapElements hI.room _)) hframe.denseCount

theorem arrayObjectDenseDelete_inv (index : ℕ) : CardInv immortal owner (arrayObjectDenseDelete st index) := by
  unfold arrayObjectDenseDelete
  split_ifs with hskip
  · exact hI
  simp only [Bool.or_eq_true, not_or, Bool.not_eq_true, isNone_eq_false_iff] at hskip
  refine ⟨room_mapElements hI.room _, (write_covered hI.covered hskip.1 index valueArrayHole).drop fun i _ hy hP => ?_⟩
  rw [hP.resolve_left id, element_write hskip.1, if_pos rfl] at hy
  exact not_young_hole _ hy

theorem arrayObjectSetLength_inv (tableLength length : ℕ) :
    CardInv immortal owner (arrayObjectSetLength tableLength st length) := by
  unfold arrayObjectSetLength
  split_ifs with hlt
  · refine shorten_inv hI ?_ _
    split_ifs with hcut
    · rw [Bool.and_eq_true, decide_eq_true_eq] at hcut
      exact hcut.2.le
    · exact le_rfl
  · exact shorten_inv hI le_rfl _

end

/-! ## Reversal -/

variable (elements : ℕ → MalValue)

theorem swapElements_apply (left right i : ℕ) : swapElements elements left right i =
      if i = right then elements left else if i = left then elements right else elements i := by
  rw [swapElements, update_apply, update_apply]

theorem reverse_swaps (count : ℕ) : ∀ k ≤ count / 2, ∀ i < count,
    (List.range k).foldl (fun elements left => swapElements elements left (count - 1 - left)) elements i =
      if i < k ∨ count - 1 - k < i then elements (count - 1 - i) else elements i := by
  intro k
  induction k with
  | zero =>
    intro _ i hi
    rw [if_neg (by omega)]
    rfl
  | succ k ih =>
    intro hk i hi
    rw [range_succ, foldl_append, foldl_cons, foldl_nil, swapElements_apply,
      ih (by omega) (count - 1 - k) (by omega), ih (by omega) k (by omega), ih (by omega) i hi]
    by_cases hright : i = count - 1 - k
    · rw [if_pos hright, if_neg (by omega), if_pos (by omega), show count - 1 - i = k by omega]
    rw [if_neg hright]
    by_cases hleft : i = k
    · rw [if_pos hleft, if_neg (by omega), if_pos (by omega), hleft]
    rw [if_neg hleft]
    by_cases hout : i < k ∨ count - 1 - k < i
    · rw [if_pos hout, if_pos (by omega)]
    · rw [if_neg hout, if_neg (by omega)]

theorem reverse_element (hr : Room st.array) (hi : i < st.array.denseCount) :
    (arrayObjectDenseReverse st).array.element i = st.array.element (st.array.denseCount - 1 - i) := by
  unfold arrayObjectDenseReverse
  rw [element_mapElements (isSome_of_pos hr (by omega)), reverse_swaps _ _ _ le_rfl i hi]
  by_cases hout : i < st.array.denseCount / 2 ∨ st.array.denseCount - 1 - st.array.denseCount / 2 < i
  · rw [if_pos hout]
  rw [if_neg hout]
  -- the middle of an odd count stays where it is
  congr 1
  omega

/-- a reversal would move no young element below the frontier of a partial card -/
def Mirrored (immortal : ℕ → Bool) (st : CardState) : Prop :=
  st.array.dirty = .arrayRange → ∀ i < st.array.denseCount, young immortal st.old (st.array.element i) = true →
    st.array.minorScanStart ≤ st.array.denseCount - 1 - i

/-- **Reversal** leaves no card, and is safe just when what it moves needs none. -/
theorem arrayObjectDenseReverse_inv (hI : CardInv immortal owner st) (hm : Mirrored immortal st) :
    CardInv immortal owner (arrayObjectDenseReverse st) := by
  refine ⟨room_mapElements hI.room _, ?_, ?_, hI.covered.full, hI.covered.listed, hI.covered.frontier,
    hI.covered.ownerOld⟩
  · intro hd i (hi : i < st.array.denseCount) hy
    rw [reverse_element hI.room hi] at hy
    exact hI.covered.clean hd _ (by omega) hy
  · intro hd i (hi : i < st.array.denseCount) hy
    rw [reverse_element hI.room hi] at hy
    have := hm hd _ (by omega) hy
    exact .inl ((by omega : st.array.minorScanStart ≤ i))

/-! ## Collections -/

theorem young_of_older {old old' : ℕ → Bool} (hle : ∀ cell, old cell = true → old' cell = true) {value : MalValue}
    (hy : young immortal old' value = true) : young immortal old value = true := by
  obtain ⟨hheap, himm, hold⟩ := young_heap hy
  have : old (valueToHeap value) = false := by
    rw [← Bool.not_eq_true]
    intro h
    rw [hle _ h] at hold
    cases hold
  simp [young, hheap, himm, this]

section

variable (hI : CardInv immortal owner st)
include hI

theorem traceVisits_young (hi : i < st.array.denseCount) (hy : young immortal st.old (st.array.element i) = true)
    : traceVisits st.array (valueToHeap (st.array.element i)) = true := by
  have hstart : scanStart st.array ≤ i := by
    unfold scanStart
    cases hd : st.array.dirty with
    | clean => exact (hI.covered.clean hd i hi hy).elim
    | full =>
      rw [hI.covered.full hd]
      simp
    | arrayRange =>
      have := (hI.covered.range hd i hi hy).resolve_right id
      rw [if_pos (by omega)]
      exact this
  unfold traceVisits
  rw [isSome_of_pos hI.room (by omega), Bool.true_and, List.any_eq_true]
  exact ⟨i, mem_range'_1.2 (by omega), by simp [(young_heap hy).1]⟩

theorem gcMinor_inv (marked : ℕ → Bool) : CardInv immortal owner (gcMinor owner immortal st marked) := by
  unfold gcMinor
  split_ifs with hmem
  · have hframe : (traceArray st.array).elements = st.array.elements ∧
        (traceArray st.array).denseCount = st.array.denseCount ∧
        (traceArray st.array).capacity = st.array.capacity ∧
        (traceArray st.array).minorScanStart ≤ arrayMinorScanMax := by
      unfold traceArray
      split_ifs with hsome hmax
      · exact ⟨rfl, rfl, rfl, hmax⟩
      · exact ⟨rfl, rfl, rfl, Nat.zero_le _⟩
      · exact ⟨rfl, rfl, rfl, hI.covered.frontier⟩
    obtain ⟨hel, hcount, hcap, hmax⟩ := hframe
    refine ⟨⟨by rw [hcount, hcap]; exact hI.room.fits, fun h => hcap.trans (hI.room.vector (hel ▸ h))⟩, ?_, nofun, nofun,
      absurd rfl, hmax, by simp [hI.covered.ownerOld]⟩
    intro _ i hi hy
    have heq : (traceArray st.array).element i = st.array.element i := by
      rw [MalArrayObject.element, hel]
      rfl
    change young immortal _ ((traceArray st.array).element i) = true at hy
    rw [heq] at hy
    have hbefore : young immortal st.old (st.array.element i) = true := young_of_older (fun cell h => by simp [h]) hy
    obtain ⟨-, himm, hold⟩ := young_heap hy
    have hvisit := traceVisits_young hI (hcount ▸ hi) hbefore
    simp [himm, hvisit] at hold
  · have hclean : st.array.dirty = .clean := by
      by_contra hne
      exact hmem (hI.covered.listed hne)
    refine ⟨hI.room, ?_, ?_, ?_, fun h => absurd hclean h, hI.covered.frontier, by simp [hI.covered.ownerOld]⟩
    · intro _ i hi hy
      exact hI.covered.clean hclean i hi (young_of_older (fun cell h => by simp [h]) hy)
    · exact fun h => absurd (hclean.symm.trans h) (by decide)
    · exact fun h => absurd (hclean.symm.trans h) (by decide)

theorem gcCard_inv (value : MalValue) : CardInv immortal owner (gcCard owner st value) := by
  have hframe := gcCard_frame owner st value
  exact .of_covered (gcCard_covered hI.covered value) (fun _ _ hP => hP.1) (hframe.room hI.room) hframe.denseCount

theorem gcAllocate_inv {cell : ℕ} (hne : cell ≠ owner)
    (hfree : ∀ i < st.array.denseCount, valueIsHeap (st.array.element i) = true → valueToHeap (st.array.element i) ≠ cell)
    : CardInv immortal owner (gcAllocate st cell) := by
  have hyoung : ∀ i < st.array.denseCount, young immortal (update st.old cell false) (st.array.element i) = true →
      young immortal st.old (st.array.element i) = true := by
    intro i hi hy
    obtain ⟨hheap, himm, hold⟩ := young_heap hy
    rw [update_of_ne (hfree i hi hheap)] at hold
    simp [young, hheap, himm, hold]
  refine ⟨hI.room, fun hd i hi hy => hI.covered.clean hd i hi (hyoung i hi hy),
    fun hd i hi hy => hI.covered.range hd i hi (hyoung i hi hy), hI.covered.full, hI.covered.listed, hI.covered.frontier, ?_⟩
  exact (update_of_ne hne.symm _ _).trans hI.covered.ownerOld

end

end Invariant

/-! ## Runs -/

inductive ArrayOp where
  | denseStore (index : ℕ) (value : MalValue)
  | freshAppend (value : MalValue)
  | freshAppendReserved (value : MalValue)
  | appendMany (values : List MalValue)
  | containedPush (values : List MalValue)
  | containedPop
  | buildValues (start : ℕ) (values : List MalValue)
  | buildFill (start count : ℕ) (value : MalValue)
  | buildRange (start : ℕ) (source : MalArrayObject) (sourceStart count : ℕ) (reverse holesAsUndefined : Bool)
  | shift
  | unshiftMany (values : List MalValue)
  | reverse
  | fill (start stop : ℕ) (value : MalValue)
  | copyWithin (target start count : ℕ)
  | splice (start deleteCount : ℕ) (values : List MalValue)
  | delete (index : ℕ)
  | setLength (tableLength length : ℕ)
  /-- a store elsewhere in the object, with its plain card -/
  | card (value : MalValue)
  | minor (marked : ℕ → Bool)
  | allocate (cell : ℕ)

section Runs

variable (immortal : ℕ → Bool) (owner : ℕ)

/-- the operation; one that is refused changes nothing. `fresh` is what a grown vector happens to hold. -/
def arrayStep (fresh : ℕ → MalValue) (st : CardState) : ArrayOp → CardState
  | .denseStore index value => (arrayObjectDenseStore owner fresh st index value).getD st
  | .freshAppend value => (arrayObjectFreshDenseAppend owner fresh st value).getD st
  | .freshAppendReserved value => arrayObjectFreshDenseAppendReserved owner st value
  | .appendMany values => (arrayObjectDenseAppendMany owner fresh st values).getD st
  | .containedPush values => (arrayObjectContainedDensePush owner fresh st values).getD st
  | .containedPop => ((arrayObjectContainedDensePop st).map Prod.fst).getD st
  | .buildValues start values => (arrayObjectDenseBuildValues owner fresh st start values).getD st
  | .buildFill start count value => (arrayObjectDenseBuildFill owner fresh st start count value).getD st
  | .buildRange start source sourceStart count reverse holesAsUndefined =>
    (arrayObjectDenseBuildRange owner fresh st start source sourceStart count reverse holesAsUndefined).getD st
  | .shift => arrayObjectDenseShift owner st
  | .unshiftMany values => (arrayObjectDenseUnshiftMany owner fresh st values).getD st
  | .reverse => arrayObjectDenseReverse st
  | .fill start stop value => arrayObjectDenseFill owner st start stop value
  | .copyWithin target start count => arrayObjectDenseCopyWithin owner st target start count
  | .splice start deleteCount values => (arrayObjectDenseSplice owner fresh st start deleteCount values).getD st
  | .delete index => arrayObjectDenseDelete st index
  | .setLength tableLength length => arrayObjectSetLength tableLength st length
  | .card value => gcCard owner st value
  | .minor marked => gcMinor owner immortal st marked
  | .allocate cell => gcAllocate st cell

/-- what the functions assert of their callers, and that a cell handed out is not referred to -/
def StepOk (st : CardState) : ArrayOp → Prop
  | .freshAppendReserved _ => st.array.denseCount < st.array.capacity
  | .containedPush _ | .containedPop => st.array.denseCount = st.array.length
  | .allocate cell => cell ≠ owner ∧ ∀ i < st.array.denseCount, valueIsHeap (st.array.element i) = true →
      valueToHeap (st.array.element i) ≠ cell
  | _ => True

def arrayRun (st : CardState) : List ((ℕ → MalValue) × ArrayOp) → CardState
  | [] => st
  | (fresh, op) :: events => arrayRun (arrayStep immortal owner fresh st op) events

/-- every step is allowed, and meets `cond` where it is taken -/
def RunOk (cond : CardState → ArrayOp → Prop) (st : CardState) : List ((ℕ → MalValue) × ArrayOp) → Prop
  | [] => True
  | (fresh, op) :: events =>
    StepOk owner st op ∧ cond st op ∧ RunOk cond (arrayStep immortal owner fresh st op) events

def ReverseMirrored (st : CardState) : ArrayOp → Prop
  | .reverse => Mirrored immortal st
  | _ => True

/-- an array as it is after its promotion: old, clean, without young elements -/
structure Promoted (st : CardState) : Prop where
  old : st.old owner = true
  clean : st.array.dirty = .clean
  elements : ∀ i < st.array.denseCount, young immortal st.old (st.array.element i) = false
  frontier : st.array.minorScanStart ≤ arrayMinorScanMax
  room : Room st.array

/-- a minor collection that starts now visits every young element -/
structure YoungVisited (st : CardState) : Prop where
  remembered : ∀ i < st.array.denseCount, young immortal st.old (st.array.element i) = true → owner ∈ st.remembered
  traced : scanStart st.array = 0 ∨ ∀ i < st.array.denseCount, young immortal st.old (st.array.element i) = true →
    st.array.minorScanStart ≤ i
  visited : ∀ i < st.array.denseCount, young immortal st.old (st.array.element i) = true →
    traceVisits st.array (valueToHeap (st.array.element i)) = true
  clean : st.array.dirty = .clean → ∀ i < st.array.denseCount, young immortal st.old (st.array.element i) = false

variable {immortal owner} {st : CardState}

theorem Promoted.inv (h : Promoted immortal owner st) : CardInv immortal owner st := by
  refine ⟨h.room, ?_, ?_, ?_, fun hd => absurd h.clean hd, h.frontier, h.old⟩
  · intro _ i hi hy
    rw [h.elements i hi] at hy
    cases hy
  · exact fun hd => absurd (h.clean.symm.trans hd) (by decide)
  · exact fun hd => absurd (h.clean.symm.trans hd) (by decide)

section

variable (hI : CardInv immortal owner st)
include hI

theorem getD_inv {result : Option CardState}
    (h : ∀ st', result = some st' → CardInv immortal owner st') : CardInv immortal owner (result.getD st) := by
  cases hr : result with
  | none => exact hI
  | some st' => exact h st' hr

/-- **One operation** keeps everything young covered. -/
theorem arrayStep_inv (fresh : ℕ → MalValue) {op : ArrayOp} (hok : StepOk owner st op)
    (hm : ReverseMirrored immortal st op) : CardInv immortal owner (arrayStep immortal owner fresh st op) := by
  cases op with
  | denseStore index value => exact getD_inv hI fun _ => arrayObjectDenseStore_inv hI fresh index value
  | freshAppend value => exact getD_inv hI fun _ => arrayObjectFreshDenseAppend_inv hI fresh value
  | freshAppendReserved value => exact arrayObjectFreshDenseAppendReserved_inv hI hok value
  | appendMany values => exact getD_inv hI fun _ => arrayObjectDenseAppendMany_inv hI fresh values
  | containedPush values => exact getD_inv hI fun _ => arrayObjectContainedDensePush_inv hI hok fresh values
  | containedPop =>
    refine getD_inv hI fun st' h => ?_
    obtain ⟨⟨_, value⟩, hpop, rfl⟩ := map_eq_some_iff.1 h
    exact arrayObjectContainedDensePop_inv hI hok hpop
  | buildValues start values => exact getD_inv hI fun _ => arrayObjectDenseBuildValues_inv hI fresh start values
  | buildFill start count value => exact getD_inv hI fun _ => arrayObjectDenseBuildFill_inv hI fresh start count value
  | buildRange start source sourceStart count reverse holesAsUndefined =>
    exact getD_inv hI fun _ =>
      arrayObjectDenseBuildRange_inv hI fresh start source sourceStart count reverse holesAsUndefined
  | shift => exact arrayObjectDenseShift_inv hI
  | unshiftMany values => exact getD_inv hI fun _ => arrayObjectDenseUnshiftMany_inv hI fresh values
  | reverse => exact arrayObjectDenseReverse_inv hI hm
  | fill start stop value => exact arrayObjectDenseFill_inv hI start stop value
  | copyWithin target start count => exact arrayObjectDenseCopyWithin_inv hI target start count
  | splice start deleteCount values =>
    exact getD_inv hI fun _ => arrayObjectDenseSplice_inv hI fresh start deleteCount values
  | delete index => exact arrayObjectDenseDelete_inv hI index
  | setLength tableLength length => exact arrayObjectSetLength_inv hI tableLength length
  | card value => exact gcCard_inv hI value
  | minor marked => exact gcMinor_inv hI marked
  | allocate cell => exact gcAllocate_inv hI hok.1 hok.2

omit hI in
theorem arrayRun_inv (events : List ((ℕ → MalValue) × ArrayOp)) : ∀ {st : CardState}, CardInv immortal owner st →
    RunOk immortal owner (ReverseMirrored immortal) st events → CardInv immortal owner (arrayRun immortal owner st events) := by
  induction events with
  | nil => exact fun hI _ => hI
  | cons event events ih =>
    intro st hI hok
    exact ih (arrayStep_inv hI event.1 hok.1 hok.2.1) hok.2.2

theorem CardInv.youngVisited : YoungVisited immortal owner st where
  remembered i hi hy := hI.covered.listed fun hd => hI.covered.clean hd i hi hy
  traced := by
    cases hd : st.array.dirty with
    | clean => exact .inr fun i hi hy => (hI.covered.clean hd i hi hy).elim
    | full => exact .inl (by simp [scanStart, hI.covered.full hd])
    | arrayRange => exact .inr fun i hi hy => (hI.covered.range hd i hi hy).resolve_right id
  visited i hi hy := traceVisits_young hI hi hy
  clean hd i hi := by
    rw [← Bool.not_eq_true]
    exact hI.covered.clean hd i hi

/-- **What reversal needs.** Without the condition a young element is left below the frontier. -/
theorem reverse_visited_iff : YoungVisited immortal owner (arrayObjectDenseReverse st) ↔ Mirrored immortal st := by
  refine ⟨fun h hd i hi hy => ?_, fun hm => (arrayObjectDenseReverse_inv hI hm).youngVisited⟩
  have hstart := (hI.covered.range hd i hi hy).resolve_right id
  have hlt : st.array.denseCount - 1 - i < st.array.denseCount := by omega
  have hy' : young immortal st.old ((arrayObjectDenseReverse st).array.element (st.array.denseCount - 1 - i)) = true := by
    rw [reverse_element hI.room hlt, show st.array.denseCount - 1 - (st.array.denseCount - 1 - i) = i by omega]
    exact hy
  rcases h.traced with hzero | hall
  · have hscan : scanStart st.array = 0 := hzero
    rw [scanStart, if_pos (by omega)] at hscan
    omega
  · exact hall _ hlt hy'

end

/-- **Minor collections visit the young elements.** In every run of array operations, plain cards, allocations and minor
collections whose reversals move no young element below the frontier of a partial card; and a reversal taken next would
lose an element exactly when it does. -/
theorem cards_cover_young (immortal : ℕ → Bool) (owner : ℕ) (st : CardState) (hst : Promoted immortal owner st)
    (events : List ((ℕ → MalValue) × ArrayOp)) (hok : RunOk immortal owner (ReverseMirrored immortal) st events) :
    YoungVisited immortal owner (arrayRun immortal owner st events) ∧
      (YoungVisited immortal owner (arrayObjectDenseReverse (arrayRun immortal owner st events)) ↔
        Mirrored immortal (arrayRun immortal owner st events)) := by
  have hI := arrayRun_inv events hst.inv hok
  exact ⟨hI.youngVisited, reverse_visited_iff hI⟩

def oneNumber : CardState where
  array :=
    { elements := some fun _ => 7, length := 1, capacity := 4, denseCount := 1, lengthWritable := true,
      denseDeopted := false, denseElementsConfigurable := true, extensible := true, inlineCapacity := 0,
      minorScanStart := 1, dirty := .clean }
  remembered := []
  old := fun cell => cell == 100

theorem oneNumber_promoted : Promoted (fun _ => false) 100 oneNumber :=
  ⟨rfl, rfl, by decide, by decide, by decide, nofun⟩

/-- a young object is appended and promoted by a collection, after which a reversal is harmless -/
theorem cards_cover_young_push_collect : YoungVisited (fun _ => false) 100 (arrayRun (fun _ => false) 100 oneNumber
      [(fun _ => 0, .allocate 200), (fun _ => 0, .freshAppend 0xFFFD0000000000C8#64), (fun _ => 0, .minor fun _ => false),
        (fun _ => 0, .reverse)]) := by
  refine (cards_cover_young (fun _ => false) 100 oneNumber oneNumber_promoted _ ?_).1
  exact ⟨⟨by decide, by decide⟩, trivial, trivial, trivial, trivial, trivial, trivial, nofun, trivial⟩

/-- **A reversal loses an element.** `[7]` is old; a young object is pushed, the array reversed: the object is at index 0,
below the frontier 1 of the card that the push left. -/
theorem reverse_loses_young : ∃ (st : CardState) (events : List ((ℕ → MalValue) × ArrayOp)),
    Promoted (fun _ => false) 100 st ∧ RunOk (fun _ => false) 100 (fun _ _ => True) st events ∧
      ¬ YoungVisited (fun _ => false) 100 (arrayRun (fun _ => false) 100 st events) := by
  refine ⟨oneNumber, [(fun _ => 0, .allocate 200), (fun _ => 0, .freshAppend 0xFFFD0000000000C8#64), (fun _ => 0, .reverse)],
    oneNumber_promoted, ⟨⟨by decide, by decide⟩, trivial, trivial, trivial, trivial, trivial, trivial⟩, fun h => ?_⟩
  exact absurd (h.visited 0 (by decide) (by decide)) (by decide)

end Runs

end Maligator.Array
