/-
What the internal steps of Map storage do to its rows: writing a row, replacing the payload, rebuilding the index and
compacting. Each is one lemma about `mapStore`.

`mapReplacePayload_agree`: conversion between layouts keeps every row at its position.
-/
import Maligator.Map.Invariant

namespace Maligator.MapObject

open HashIndex List Function Rows KeyRows Collection

/-! ## Writing a row -/

variable {s t : MalMapStorage} {env : MapEnv} {k key' : MalValue} {d e : MalMapKeyDomain}

section

variable (p : MalMapPayload) (d : MalMapKeyDomain) (i j : ℕ) (v : MalValue)

theorem payloadValue_storeValue : payloadValue (mapStoreValue p d i v) d j = if j = i then v else payloadValue p d j := by
  unfold payloadValue mapStoreValue
  split_ifs with h1 h2 <;> simp [*]

theorem payloadKey_storeValue : payloadKey (mapStoreValue p d i v) d j = payloadKey p d j := by
  unfold payloadKey mapStoreValue
  split_ifs with h1
  · rfl
  · by_cases h : j = i <;> simp [h]

theorem payloadValue_storeKey (k : MalValue) : payloadValue (mapStoreKey p d i k) d j = payloadValue p d j := by
  unfold payloadValue mapStoreKey
  split_ifs with h1
  · rfl
  · by_cases h : j = i <;> simp [h]

theorem payloadKey_storeKey {d : MalMapKeyDomain} (hk : Storable d k) :
    payloadKey (mapStoreKey p d i k) d j = if j = i then k else payloadKey p d j := by
  unfold payloadKey mapStoreKey
  split_ifs with h1 h2
  · simp [h2, hk h1]
  · simp [h2]
  · simp [*]
  · simp [*]

end

theorem mapValueAt_setValue (s : MalMapStorage) (i j : ℕ) (v : MalValue) :
    mapValueAt (mapSetValue s i v) j = if j = i then v else mapValueAt s j := by
  cases hp : s.payload with
  | none => simp [mapValueAt, mapSetValue, hp, update_apply]
  | some p => simp [mapValueAt, mapSetValue, hp, payloadValue_storeValue]

theorem mapKeyAt_setValue (s : MalMapStorage) (i j : ℕ) (v : MalValue) :
    mapKeyAt (mapSetValue s i v) j = mapKeyAt s j := by
  cases hp : s.payload with
  | none => simp [mapKeyAt, mapSetValue, hp]
  | some p => simp [mapKeyAt, mapSetValue, hp, payloadKey_storeValue]

theorem mapValueAt_setKey (s : MalMapStorage) (i j : ℕ) (k : MalValue) :
    mapValueAt (mapSetKey s i k) j = mapValueAt s j := by
  cases hp : s.payload with
  | none => simp [mapValueAt, mapSetKey, hp]
  | some p => simp [mapValueAt, mapSetKey, hp, payloadValue_storeKey]

theorem mapKeyAt_setKey (s : MalMapStorage) (i j : ℕ) (hk : Storable s.domain k) :
    mapKeyAt (mapSetKey s i k) j = if j = i then k else mapKeyAt s j := by
  cases hp : s.payload with
  | none => simp [mapKeyAt, mapSetKey, hp, update_apply]
  | some p => simp [mapKeyAt, mapSetKey, hp, payloadKey_storeKey p i j hk]

theorem mapStore_of_rest (hinline : t.payload = none ↔ s.payload = none)
    (hrest : t = { s with payload := t.payload, small := t.small, smallValues := t.smallValues }) :
    mapStore t = { mapStore s with row := mapRow t } := by
  generalize hr : mapRow t = r
  rw [mapStore, hr, hinline, hrest]
  rfl

/-- t differs from s in the key and the value of row i only -/
structure Written (s t : MalMapStorage) (i : ℕ) (key value : MalValue) : Prop where
  keys : ∀ j, mapKeyAt t j = if j = i then key else mapKeyAt s j
  values : ∀ j, mapValueAt t j = if j = i then value else mapValueAt s j
  inline : t.payload = none ↔ s.payload = none
  rest : t = { s with payload := t.payload, small := t.small, smallValues := t.smallValues }

section Written

variable {i : ℕ} {key value : MalValue}

theorem Written.refl (s : MalMapStorage) (i : ℕ) : Written s s i (mapKeyAt s i) (mapValueAt s i) :=
  ⟨fun j => by split_ifs with h <;> simp [h], fun j => by split_ifs with h <;> simp [h], Iff.rfl, rfl⟩

variable (h : Written s t i key value)
include h

theorem Written.setValue (value' : MalValue) : Written s (mapSetValue t i value') i key value' := by
  refine ⟨fun j => ?_, fun j => ?_, ?_, ?_⟩
  · rw [mapKeyAt_setValue, h.keys]
  · rw [mapValueAt_setValue, h.values]
    split_ifs <;> rfl
  · rw [← h.inline]
    cases hp : t.payload <;> simp [mapSetValue, hp]
  · have hrest : mapSetValue t i value' = { t with
        payload := (mapSetValue t i value').payload, small := (mapSetValue t i value').small
        smallValues := (mapSetValue t i value').smallValues } := by
      cases hp : t.payload <;> simp [mapSetValue, hp]
    rw [hrest, h.rest]

theorem Written.setKey (hk : Storable s.domain key') : Written s (mapSetKey t i key') i key' value := by
  have hd : t.domain = s.domain := by rw [h.rest]
  refine ⟨fun j => ?_, fun j => ?_, ?_, ?_⟩
  · rw [mapKeyAt_setKey t i j (hd ▸ hk), h.keys]
    split_ifs <;> rfl
  · rw [mapValueAt_setKey, h.values]
  · rw [← h.inline]
    cases hp : t.payload <;> simp [mapSetKey, hp]
  · have hrest : mapSetKey t i key' = { t with
        payload := (mapSetKey t i key').payload, small := (mapSetKey t i key').small
        smallValues := (mapSetKey t i key').smallValues } := by
      cases hp : t.payload <;> simp [mapSetKey, hp]
    rw [hrest, h.rest]

theorem Written.row (hkv : s.payload = none → (key = valueEmpty ↔ value = valueEmpty)) :
    mapRow t = update (mapRow s) i (liveRow key value) := by
  funext j
  by_cases hj : j = i
  · subst hj
    rw [mapRow, mapIsLive_eq, h.keys, h.values, liveRow]
    by_cases hp : s.payload = none <;> by_cases hv : value = valueEmpty <;> simp [h.inline, hp, hkv]
  · rw [update_of_ne hj]
    simp only [mapRow, mapIsLive_eq, h.keys, h.values, h.inline, if_neg hj]

theorem Written.store (hkv : s.payload = none → (key = valueEmpty ↔ value = valueEmpty)) :
    mapStore t = { mapStore s with row := update (mapRow s) i (liveRow key value) } := by
  rw [mapStore_of_rest h.inline h.rest, h.row hkv]

theorem Written.valuesOk (hs : ValuesOk s) (hkv : s.payload = none → (key = valueEmpty ↔ value = valueEmpty)) :
    ValuesOk t := by
  intro j hj
  rw [h.rest] at hj
  rw [h.row hkv, h.keys, h.values]
  by_cases hji : j = i
  · subst hji
    simp
  · rw [update_of_ne hji, if_neg hji, if_neg hji]
    exact hs j hj

end Written

/-! ## Replacing the payload -/

theorem mapConvert_rows (s : MalMapStorage) (d : MalMapKeyDomain) (fresh : MalMapPayload) (n : ℕ)
    (hk : ∀ i < n, mapValueAt s i ≠ valueEmpty → Storable d (mapKeyAt s i)) :
    ∀ i < n, liveRow (payloadKey ((range n).foldl (mapConvertRow s d) fresh) d i)
      (payloadValue ((range n).foldl (mapConvertRow s d) fresh) d i) = liveRow (mapKeyAt s i) (mapValueAt s i) := by
  induction n with
  | zero => intro i hi; omega
  | succ n ih =>
    intro i hi
    have ih := ih fun i hi => hk i (by omega)
    rw [range_succ, foldl_append]
    simp only [foldl_cons, foldl_nil, mapConvertRow]
    split_ifs with hv
    · -- a dead row keeps no key
      rw [payloadValue_storeValue, payloadKey_storeValue]
      split_ifs with hin
      · subst hin
        simp [liveRow, hv]
      · exact ih i (by omega)
    have hst := hk n (by omega) hv
    rw [payloadValue_storeKey, payloadValue_storeValue, payloadKey_storeKey _ n i hst, payloadKey_storeValue]
    by_cases hin : i = n
    · subst hin
      simp
    · rw [if_neg hin, if_neg hin]
      exact ih i (by omega)

theorem mapRowWidth_eq_iff : mapRowWidth d = mapRowWidth e ↔ (d = .int32 ↔ e = .int32) := by
  unfold mapRowWidth
  split_ifs with h1 h2 h2 <;> simp [h1, h2]

theorem mapReplacePayload_rows (env : MapEnv) (s : MalMapStorage) (d : MalMapKeyDomain) (c : ℕ)
    (hk : ∀ i < s.count, mapValueAt s i ≠ valueEmpty → Storable d (mapKeyAt s i)) :
    ∀ i < s.count, liveRow (mapKeyAt (mapReplacePayload env s d c) i) (mapValueAt (mapReplacePayload env s d c) i) =
      liveRow (mapKeyAt s i) (mapValueAt s i) := by
  intro i hi
  have hconv := mapConvert_rows s d env.fresh s.count hk i hi
  cases hp : s.payload with
  | none => simpa [mapReplacePayload, mapValueAt, mapKeyAt, hp] using hconv
  | some old =>
    by_cases hw : mapRowWidth d = mapRowWidth s.domain
    · -- same layout: memcpy
      have hd := mapRowWidth_eq_iff.1 hw
      by_cases hdi : d = .int32
      · have hsd := hd.1 hdi
        simp [mapReplacePayload, mapValueAt, mapKeyAt, hp, hdi, hsd, payloadValue, payloadKey, copyRows, hi]
      · have hsd := mt hd.2 hdi
        simp [mapReplacePayload, mapValueAt, mapKeyAt, hp, hw, hdi, hsd, payloadValue, payloadKey, copyRows, hi]
    · simpa [mapReplacePayload, mapValueAt, mapKeyAt, hp, hw] using hconv

section

variable (hI : (mapStore s).RowsInv env)
include hI

theorem mapReplacePayload_agree (hv : ValuesOk s) (c : ℕ)
    (hfit : ∀ i < s.count, ∀ k, (mapStore s).keys i = some k → Fits d k) :
    Store.Agree { mapStore s with inline := False, capacity := c, domain := d } (mapStore (mapReplacePayload env s d c)) := by
  refine ⟨mapRow (mapReplacePayload env s d c), fun i hi => ?_, by simp [mapStore, mapReplacePayload]⟩
  have hk : ∀ i < s.count, mapValueAt s i ≠ valueEmpty → Storable d (mapKeyAt s i) := by
    intro i hi hne
    have hkey : (mapStore s).keys i = some (mapKeyAt s i) := by
      change (mapRow s i).map _ = _
      rw [hv i hi, liveRow, if_neg hne]
      rfl
    exact storable_of_fits (hI.rows.keyOk i hi _ hkey).1 (hfit i hi _ hkey)
  have hrow := valuesOk_of_payload (s := mapReplacePayload env s d c) (by simp [mapReplacePayload]) i hi
  exact hrow.trans ((mapReplacePayload_rows env s d c hk i hi).trans (hv i hi).symm)

/-! ## The index -/

theorem mapFillSlots_spec {env : KeyEnv} (slots : ℕ → ℕ) {k : ℕ} (hfits : hashIndexFits s.size (16 * 2 ^ k) = true) :
    ∃ index, mapFillSlots env s slots (16 * 2 ^ k) = some { s with index := index, deletedSlots := 0 } ∧
      (mapStore { s with index := index, deletedSlots := 0 }).Indexed env k := by
  have hlive : ∀ i < s.count, mapIsLive s i = ((mapStore s).keys i).isSome := fun i _ => by
    rw [Store.keys, Option.isSome_map, mapStore, mapRow_isSome]
  have hhash : ∀ i < s.count, mapIsLive s i = true →
      keyHashValue env (mapKeyAt s i) = rowHash env (mapStore s).keys i := by
    intro i _ hl
    rw [rowHash, keys_eq_some.2 ⟨hl, rfl⟩, Option.getD_some]
  rw [← show (mapStore s).size = s.size from rfl, hI.size] at hfits
  obtain ⟨index, hfill, hH⟩ := holds_fill env (mapStore s).keys s.count hlive hhash slots hfits
  refine ⟨index, ?_, hH⟩
  simp only [mapFillSlots, hfill, Option.bind_eq_bind, Option.bind_some, Option.pure_def]

/-! ## Compaction -/

structure MapCompacting (s : MalMapStorage) (i : ℕ) (st : MalMapStorage × ℕ) : Prop where
  rows : Compacting (mapRow s) i (mapRow st.1, st.2)
  values : ValuesOk st.1
  inline : st.1.payload = none ↔ s.payload = none
  rest : st.1 = { s with payload := st.1.payload, small := st.1.small, smallValues := st.1.smallValues }

theorem MapCompacting.step {i : ℕ} (hi : i < s.count)
    {st : MalMapStorage × ℕ} (h : MapCompacting s i st) : MapCompacting s (i + 1) (mapCompactRow st i) := by
  have hrow : mapRow st.1 i = mapRow s i := h.rows.rest i le_rfl
  have hval := h.values i (by rw [h.rest]; exact hi)
  have hstep := h.rows.step
  unfold mapCompactRow
  by_cases hv : mapValueAt st.1 i = valueEmpty
  · -- a dead row is skipped
    rw [liveRow, if_pos hv] at hval
    rw [if_pos hv]
    rw [compactStep_none hval] at hstep
    exact ⟨hstep, h.values, h.inline, h.rest⟩
  rw [liveRow, if_neg hv] at hval
  rw [if_neg hv]
  rw [compactStep_some hval] at hstep
  have hkey : (mapStore s).keys i = some (mapKeyAt st.1 i) := by
    change (mapRow s i).map _ = _
    rw [← hrow, hval]
    rfl
  obtain ⟨hcan, hfit⟩ := hI.rows.keyOk i hi _ hkey
  have hst : Storable st.1.domain (mapKeyAt st.1 i) := by
    rw [show st.1.domain = s.domain by rw [h.rest]]
    exact storable_of_fits hcan hfit
  have hwrite := ((Written.refl st.1 st.2).setKey hst).setValue (mapValueAt st.1 i)
  have hkv : st.1.payload = none → (mapKeyAt st.1 i = valueEmpty ↔ mapValueAt st.1 i = valueEmpty) := fun _ =>
    iff_of_false hcan.notEmpty hv
  refine ⟨?_, hwrite.valuesOk h.values hkv, hwrite.inline.trans h.inline, ?_⟩
  · rw [hwrite.row hkv, liveRow, if_neg hv]
    exact hstep
  · exact hwrite.rest.trans (by rw [h.rest])

theorem mapCompacting_fold (hv : ValuesOk s) :
    ∀ n ≤ s.count, MapCompacting s n ((range n).foldl mapCompactRow (s, 0)) := by
  intro n
  induction n with
  | zero => exact fun _ => ⟨compacting_fold (mapRow s) 0, hv, Iff.rfl, rfl⟩
  | succ n ih =>
    intro hn
    rw [range_succ, foldl_append]
    exact (ih (by omega)).step hI hn

end

theorem mapDemote_spec {env : KeyEnv} (hI : (mapStore t).RowsInv env) (hlive : ∀ i < t.count, mapIsLive t i = true)
    (hv : ValuesOk t) (hhint : t.entryHint = 0) (hpins : t.pins = 0) (hsmall : t.count ≤ mapSmallCapacity) :
    MapInv env (mapDemote t) ∧ Store.Compacted env (mapStore t) (mapStore (mapDemote t)) := by
  have hkey : ∀ i < t.count, mapKeyAt (mapDemote t) i = mapKeyAt t i ∧ mapValueAt (mapDemote t) i = mapValueAt t i := by
    intro i hi
    simp [mapKeyAt, mapValueAt, mapDemote, copyRows, hi]
  have hrow : ∀ i < t.count, mapRow (mapDemote t) i = mapRow t i := by
    intro i hi
    have hl := hlive i hi
    have hne : mapKeyAt t i ≠ valueEmpty := (hI.rows.keyOk i hi _ (keys_eq_some.2 ⟨hl, rfl⟩)).1.notEmpty
    have hl' : mapIsLive (mapDemote t) i = true := by
      rw [mapIsLive_eq, if_pos (show (mapDemote t).payload = none from rfl), (hkey i hi).1]
      simpa using hne
    rw [mapRow_of_live hl, mapRow_of_live hl', (hkey i hi).1, (hkey i hi).2]
  have hagree : Store.Agree { mapStore t with
      inline := True, index := { t.index with capacity := 0 }, capacity := 4, deletedSlots := 0, reserveSize := 0,
      domain := if t.count = 0 then .empty else t.domain } (mapStore (mapDemote t)) :=
    ⟨mapRow (mapDemote t), hrow, by simp [mapStore, mapDemote, mapSmallCapacity]⟩
  refine ⟨⟨hagree.inv (hI.demote hsmall rfl 0), fun i hi => ?_, fun h => absurd hhint h⟩, hagree.contents, rfl, rfl, le_rfl,
    Nat.zero_le _, fun h => absurd hpins h⟩
  rw [hrow i hi, (hkey i hi).1, (hkey i hi).2]
  exact hv i hi

/-- **Compaction of an emptied storage** discards every row. -/
theorem mapCompact_empty (env : MapEnv) (hp : s.pins = 0) (hz : s.size = 0) (howned : s.ownerReleased = false) :
    ∃ t, mapCompact env s = some t ∧ MapInv env t ∧ (mapStore t).contents env = [] ∧ t.pins = 0 ∧
      t.size = 0 ∧ t.count = 0 ∧ t.reserveSize = 0 := by
  refine ⟨mapDemote { mapForgetHint s with count := 0 }, ?_,
    ⟨Store.inv_empty rfl rfl hz rfl rfl rfl howned, nofun, absurd rfl⟩, rfl,
    hp, hz, rfl, rfl⟩
  have hrows : mapCompactRows (mapForgetHint s) = { mapForgetHint s with count := 0 } := by
    simp [mapCompactRows, mapForgetHint, hz]
  rw [mapCompact, if_neg (by simpa using hp), hrows]
  rfl

/-- **After the pass**: back to inline rows, or a payload and an index of the right size. -/
theorem mapCompactFinish_spec (hI : (mapStore t).RowsInv env) (hlive : ∀ i < t.count, mapIsLive t i = true)
    (hv : ValuesOk t) (hhint : t.entryHint = 0) (hfull : t.count = t.size) (hpins : t.pins = 0)
    (hp : mapSmallCapacity < t.count → t.payload ≠ none) :
    ∃ u, mapCompactFinish env t = some u ∧ MapInv env u ∧ Store.Compacted env (mapStore t) (mapStore u) := by
  unfold mapCompactFinish
  split_ifs with hsmall
  · exact ⟨_, rfl, mapDemote_spec hI hlive hv hhint hpins hsmall⟩
  have hpay := hp (not_le.1 hsmall)
  have hmem : t.count ≤ memberLimit := hfull ▸ hI.sizeLe
  have hlimit : memberLimit ≤ 2 ^ 30 := by decide
  obtain ⟨c, hc, hge, hc0, hclt⟩ := collectionCapacity_spec t.count 4 (hmem.trans hlimit) (by decide) (by decide)
  obtain ⟨k, hk, hfits⟩ := collectionSlotCapacity_spec hmem
  rw [mapCapacity, hc]
  simp only [Option.bind_eq_bind, Option.bind_some]
  -- shrinking the payload keeps the rows
  generalize hu : (if c < t.capacity then mapReplacePayload env t t.domain c else t) = v
  have hshrunk : (mapStore v).RowsInv env ∧ Store.Compacted env (mapStore t) (mapStore v) ∧ v.payload ≠ none ∧
      v.entryHint = 0 ∧ v.count = t.count := by
    rw [← hu]
    split_ifs
    · obtain ⟨hrows, hcomp⟩ := hI.shrink hpay hpins ⟨hge, hc0, hclt⟩ (mapReplacePayload_agree hI hv c
        fun i hi k hk => (hI.rows.keyOk i hi k hk).2)
      exact ⟨hrows, hcomp, by simp [mapReplacePayload], hhint, rfl⟩
    · exact ⟨hI, Store.Compacted.refl _ _, hpay, hhint, rfl⟩
  obtain ⟨hrows, hcomp, hvp, hvh, hvc⟩ := hshrunk
  have hvs : v.size = t.size := hcomp.size
  -- either way the index is filled from the rows; only the slots it is built in differ
  have hfill : ∀ slots, ∃ u, mapFillSlots env v slots (16 * 2 ^ k) = some u ∧ MapInv env u ∧
      Store.Compacted env (mapStore t) (mapStore u) := by
    intro slots
    obtain ⟨index, hf, hH⟩ := mapFillSlots_spec hrows slots (by rw [hvs, ← hfull]; exact hfits)
    exact ⟨_, hf, ⟨hrows.reindex hvp hH, valuesOk_of_payload hvp, fun h => absurd hvh h⟩,
      { hcomp with pinned := fun h => absurd hpins h }⟩
  rw [hvc, mapSlotCapacity, hk]
  simp only [Option.bind_some]
  split_ifs
  · exact hfill env.freshSlots
  · exact hfill v.index.slots

/-- **Compaction keeps the contents.** It does nothing while the storage is pinned. -/
theorem mapCompact_spec (hI : MapInv env s) :
    ∃ t, mapCompact env s = some t ∧ MapInv env t ∧ Store.Compacted env (mapStore s) (mapStore t) := by
  by_cases hpin : s.pins = 0
  swap
  · exact ⟨s, by simp [mapCompact, hpin], hI, Store.Compacted.refl _ _⟩
  by_cases hz : s.size = 0
  · obtain ⟨t, ht, hinv, hcont, hp, hs, hc, hr⟩ := mapCompact_empty env hpin hz hI.owned
    have hnil : (mapStore s).contents env = [] := length_eq_zero_iff.1 (hI.length.trans hz)
    exact ⟨t, ht, hinv, hcont.trans hnil.symm, hp.trans hpin.symm, hs.trans hz.symm, hc.trans_le (Nat.zero_le _),
      hr.trans_le (Nat.zero_le _), fun h => absurd hpin h⟩
  have hfold := mapCompacting_fold (s := mapForgetHint s) hI.toRowsInv hI.values s.count le_rfl
  rw [mapCompact, if_neg (by simpa using hpin), mapCompactRows, if_pos (show (mapForgetHint s).size ≠ 0 from hz)]
  change ∃ t, mapCompactFinish env (let st := (range s.count).foldl mapCompactRow (mapForgetHint s, 0)
    { st.1 with count := st.2 }) = some t ∧ _
  generalize (range s.count).foldl mapCompactRow (mapForgetHint s, 0) = st at hfold
  obtain ⟨t, n⟩ := st
  obtain ⟨hpass, hvalues, hinline, hrest⟩ := hfold
  dsimp only at hpass hvalues hinline hrest ⊢
  obtain ⟨hrows, hcomp, hsize, hlive⟩ := hI.packed hpin hpass
  have hstore : mapStore { t with count := n } = { mapStore s with row := mapRow t, count := n } :=
    congrArg (fun T : Store MalValue => { T with count := n }) (mapStore_of_rest hinline hrest)
  rw [← hstore] at hrows hcomp
  have hlive' : ∀ i < n, mapIsLive t i = true := fun i hi => by
    rw [← mapRow_isSome]
    exact hlive i hi
  have hle : n ≤ s.count := hcomp.count
  have hspill : mapSmallCapacity < n → t.payload ≠ none := by
    intro hgt hn
    have hcap : s.capacity = mapSmallCapacity := (hI.small (hinline.1 hn)).1
    have hle' : s.count ≤ s.capacity := hI.countLe
    omega
  have hcount : t.count = s.count := by rw [hrest]; rfl
  have hhint : t.entryHint = 0 := by rw [hrest]; rfl
  obtain ⟨u, hu, hinv, hcomp'⟩ := mapCompactFinish_spec (t := { t with count := n }) hrows hlive'
    (fun i hi => hvalues i (hcount ▸ hi.trans_le hle)) hhint (hsize.trans hcomp.size.symm) (hcomp.pins.trans hpin) hspill
  exact ⟨u, hu, hinv, hcomp.trans hcomp'⟩

theorem mapCompactIfDue_spec (hI : MapInv env s) :
    ∃ t, mapCompactIfDue env s = some t ∧ MapInv env t ∧ Store.Compacted env (mapStore s) (mapStore t) := by
  unfold mapCompactIfDue
  split_ifs
  · exact mapCompact_spec hI
  · exact ⟨s, rfl, hI, Store.Compacted.refl _ _⟩

end Maligator.MapObject
