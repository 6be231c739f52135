/-
The operations of a weak storage, each with what it does to the rows.

`weakRebuild_spec`, `weakDemote_spec`, `weakMaintain_spec`: the layout changes, the rows do not.
`weakUpsert_spec`: the key has its row, or a new one.
`weakErase_spec`: one row leaves.
`weakRetain_spec`: exactly the rows whose key is not kept leave, in the inline scan and in the scan of the buckets.
-/
import Maligator.Weak.Invariant

namespace Maligator.Weak

open HashIndex Function Option Prod Rows

variable {V : Type} [DecidableEq V] {s : MalWeakStorage V} {l : List (MalValue × V)}
  {scanned next : ℕ} {small : ℕ → MalValue × V}

/-! ## Layout changes -/

theorem weakCapacity_spec {members : ℕ} (hm : members ≤ memberLimit) :
    ∃ k, weakCapacity members = some (16 * 2 ^ k) ∧ hashIndexFits members (16 * 2 ^ k) = true :=
  collectionSlotCapacity_spec hm

theorem weakRebuild_spec (hI : WeakInv s l) (fresh : ℕ → MalValue × V) {k : ℕ}
    (hfits : hashIndexFits l.length (16 * 2 ^ k) = true) : ∃ index, weakRebuild fresh s (16 * 2 ^ k) =
        some { s with buckets := some index, deleted := 0, reserveSize := 0 } ∧
      Holds k rowHash index 0 l.toFinset := by
  have hnd : (weakRows s).Nodup := hI.rows.nodup_iff.2 hI.nodupRows
  obtain ⟨index, hfill, hh⟩ := Holds.rebuild k rowHash fresh hnd (by rw [hI.rows.length_eq]; exact hfits)
  rw [List.toFinset_eq_of_perm _ _ hI.rows] at hh
  exact ⟨index, by rw [weakRebuild, hfill]; rfl, hh⟩

theorem weakRebuild_inv (hI : WeakInv s l) (fresh : ℕ → MalValue × V) {k : ℕ}
    (hfits : hashIndexFits l.length (16 * 2 ^ k) = true) :
    ∃ t, weakRebuild fresh s (16 * 2 ^ k) = some t ∧ WeakInv t l := by
  obtain ⟨index, hrebuild, hh⟩ := weakRebuild_spec hI fresh hfits
  exact ⟨_, hrebuild, .of_holds hI.nodup rfl hh hI.size hI.limit (Nat.zero_le _)⟩

structure Demoting (s : MalWeakStorage V) (scanned next : ℕ) (small : ℕ → MalValue × V) : Prop where
  length : next = (entries (weakRowAt s) scanned).length
  copied : ∀ j < next, some (small j) = (entries (weakRowAt s) scanned)[j]?

omit [DecidableEq V] in
theorem Demoting.step_live (h : Demoting s scanned next small) (hl : weakLive s scanned = true) :
    Demoting s (scanned + 1) (next + 1) (update small next (weakRow s scanned)) := by
  have hentries : entries (weakRowAt s) (scanned + 1) = entries (weakRowAt s) scanned ++ [weakRow s scanned] := by
    rw [entries_succ, weakRowAt, if_pos hl]
    rfl
  refine ⟨by rw [hentries, List.length_append, ← h.length]; rfl, fun j hj => ?_⟩
  rw [hentries]
  by_cases hjn : j = next
  · subst hjn
    rw [update_self, h.length, List.getElem?_concat_length]
  · have hlt : j < next := by omega
    rw [update_of_ne hjn, h.copied j hlt, List.getElem?_append_left (h.length ▸ hlt)]

omit [DecidableEq V] in
theorem Demoting.step_dead (h : Demoting s scanned next small)
    (hl : weakLive s scanned = false) : Demoting s (scanned + 1) next small := by
  have hentries : entries (weakRowAt s) (scanned + 1) = entries (weakRowAt s) scanned := by
    rw [entries_succ, weakRowAt, if_neg (by simp [hl])]
    exact List.append_nil _
  exact ⟨by rw [hentries]; exact h.length, fun j hj => by rw [hentries]; exact h.copied j hj⟩

omit [DecidableEq V] in
theorem entries_prefix {R : Type} (row : ℕ → Option R) {m n : ℕ} (h : m ≤ n) : entries row m <+: entries row n := by
  obtain ⟨d, rfl⟩ := Nat.exists_eq_add_of_le h
  induction d with
  | zero => exact List.prefix_refl _
  | succ d ih =>
    rw [← Nat.add_assoc, entries_succ]
    exact (ih (Nat.le_add_right _ _)).trans (List.prefix_append _ _)

omit [DecidableEq V] in
theorem weakDemoteLoop_spec (hsize : s.size = (weakRows s).length) :
    ∀ (fuel scanned next : ℕ) (small : ℕ → MalValue × V), scanned + fuel = weakStorageScanSlots s →
      Demoting s scanned next small →
      ∀ j < s.size, some (weakDemoteLoop s fuel scanned next small j) = (weakRows s)[j]? := by
  intro fuel
  induction fuel with
  | zero =>
    intro scanned next small hf hd j hj
    rw [Nat.add_zero] at hf
    have hrows : weakRows s = entries (weakRowAt s) scanned := by rw [weakRows, hf]
    have hnext : s.size = next := by rw [hsize, hrows, hd.length]
    rw [hrows]
    exact hd.copied j (hnext ▸ hj)
  | succ fuel ih =>
    intro scanned next small hf hd
    rw [weakDemoteLoop]
    split_ifs with hlt hl
    · exact ih (scanned + 1) (next + 1) _ (by omega) (hd.step_live hl)
    · exact ih (scanned + 1) next _ (by omega) (hd.step_dead (by simpa using hl))
    intro j hj
    obtain ⟨rest, hrest⟩ := entries_prefix (weakRowAt s) (show scanned ≤ weakStorageScanSlots s by omega)
    have hjn : j < next := by omega
    rw [hd.copied j hjn, weakRows, ← hrest, List.getElem?_append_left (hd.length ▸ hjn)]

theorem weakDemote_spec (hI : WeakInv s l) (hsmall : s.size ≤ weakInlineCapacity) : WeakInv (weakDemote s) l := by
  have hsize : s.size = (weakRows s).length := hI.size.trans hI.rows.length_eq.symm
  refine .of_inline hI.nodup rfl ?_ hsmall (Nat.zero_le _)
  refine (List.Perm.of_eq ?_).trans hI.rows
  refine List.ext_getElem? fun j => ?_
  change ((List.range s.size).map (weakDemote s).small)[j]? = _
  by_cases hj : j < s.size
  · rw [List.getElem?_map, List.getElem?_range hj]
    exact weakDemoteLoop_spec hsize _ 0 0 _ (Nat.zero_add _) ⟨rfl, nofun⟩ j hj
  · rw [List.getElem?_eq_none_iff.2 (by simpa using hj), List.getElem?_eq_none_iff.2 (by omega)]

/-- **Maintenance** after rows have left. -/
theorem weakMaintain_spec (hI : WeakInv s l) (fresh : ℕ → MalValue × V) (afterFilter : Bool) :
    ∃ t, weakMaintain fresh s afterFilter = some t ∧ WeakInv t l := by
  unfold weakMaintain
  cases hb : s.buckets with
  | none => exact ⟨s, rfl, hI⟩
  | some index =>
    obtain ⟨k, hh⟩ := hI.hashed index hb
    dsimp only
    split_ifs with hsmall hshrink hfilter
    · exact ⟨_, rfl, weakDemote_spec hI hsmall⟩
    · obtain ⟨k', hcap, hfits⟩ := weakCapacity_spec hI.limit
      rw [hI.size, hcap]
      exact weakRebuild_inv hI fresh hfits
    · have hfits := hh.fits
      rw [hI.card, hashIndexFits, decide_eq_true_eq] at hfits
      rw [hh.cap]
      refine weakRebuild_inv hI fresh ?_
      rw [hashIndexFits, decide_eq_true_eq]
      omega
    · exact ⟨s, rfl, hI⟩

/-! ## Insertion -/

variable {key : MalValue} {index : MalHashIndex (MalValue × V)} {keep : MalValue → Bool}

omit [DecidableEq V] in
theorem nodup_append_new (hnd : (l.map fst).Nodup) (hnew : key ∉ l.map fst) (value : V) :
    ((l ++ [(key, value)]).map fst).Nodup := by
  have h := nodup_insert key value hnd
  rwa [Rows.insert, if_neg (by rw [contains_iff]; exact hnew)] at h

theorem toFinset_append_new (key : MalValue) (value : V) :
    (l ++ [(key, value)]).toFinset = Insert.insert (key, value) l.toFinset := by
  ext row
  simp [or_comm]

structure Upserted (t : MalWeakStorage V) (l : List (MalValue × V)) (key : MalValue) (slot : ℕ) : Prop where
  inv : WeakInv t l
  lt : slot < weakStorageScanSlots t
  live : weakLive t slot = true
  key : (weakRow t slot).1 = key

section

variable (hI : WeakInv s l)
include hI

theorem weakPlace_spec (hb : s.buckets = some index) {k : ℕ}
    (hh : Holds k rowHash index s.deleted l.toFinset) {slot : ℕ}
    (hvac : Holds.Vacant k index (keyHashMix key) slot) (hnew : key ∉ l.map fst) (undefined : V)
    (hfits : hashIndexFits (l.length + 1 + (s.deleted - (deletedCtrl (index.controls slot)).toNat)) (16 * 2 ^ k) = true)
    (hlimit : l.length + 1 ≤ memberLimit) : ∃ t, weakPlace undefined s key (keyHashMix key) slot = some (t, slot) ∧
      Upserted t (l ++ [(key, undefined)]) key slot := by
  have hmem : (key, undefined) ∉ l.toFinset := fun h => hnew (List.mem_map_of_mem (List.mem_toFinset.1 h))
  have hh' := hh.insert (e := (key, undefined)) hvac hmem (by rw [hI.card]; exact hfits)
  rw [← toFinset_append_new] at hh'
  refine ⟨{ s with
      buckets := some (hashIndexInsert index slot (key, undefined) (keyHashMix key))
      deleted := s.deleted - (index.controls slot == hashDeleted).toNat
      size := s.size + 1 }, by rw [weakPlace, hb]; rfl, ?_, ?_, ?_, ?_⟩
  · refine .of_holds (nodup_append_new hI.nodup hnew undefined) rfl hh' ?_ ?_ hI.reserve
    · rw [List.length_append, ← hI.size]; rfl
    · rw [List.length_append]; exact hlimit
  · change slot < index.capacity
    rw [hh.cap]
    exact hvac.lt
  · change decide ((update index.controls slot (hashTag (keyHashMix key))) slot < hashEmpty) = true
    rw [update_self]
    exact decide_eq_true (hashTag_lt _)
  · exact congrArg fst (update_self slot (key, undefined) index.slots)

theorem weakInsert_inline (hb : s.buckets = none) (hsize : s.size < weakInlineCapacity)
    (hnew : key ∉ l.map fst) (undefined : V) :
    Upserted { s with small := update s.small s.size (key, undefined), size := s.size + 1 }
      (l ++ [(key, undefined)]) key s.size := by
  have hrows := hI.rows
  rw [weakRows_inline hb] at hrows
  refine ⟨.of_inline (nodup_append_new hI.nodup hnew undefined) hb ?_ hsize hI.reserve, ?_, ?_, ?_⟩
  · change ((List.range (s.size + 1)).map (update s.small s.size (key, undefined))).Perm _
    rw [List.range_succ, List.map_append, List.map_singleton, update_self]
    refine List.Perm.append_right _ ((List.Perm.of_eq (List.map_congr_left fun i hi => ?_)).trans hrows)
    exact update_of_ne (List.mem_range.1 hi).ne _ _
  · rw [hb]
    exact Nat.lt_succ_self _
  · rw [hb]
    exact decide_eq_true (Nat.lt_succ_self _)
  · rw [hb]
    exact congrArg fst (update_self s.size (key, undefined) s.small)

theorem members_le (hlimit : l.length + 1 ≤ memberLimit) :
    l.length + 1 ≤ (if s.reserveSize > s.size + 1 then s.reserveSize else s.size + 1) ∧
      (if s.reserveSize > s.size + 1 then s.reserveSize else s.size + 1) ≤ memberLimit := by
  rw [hI.size]
  have := hI.reserve
  split_ifs <;> omega

/-- **Insertion of a new key**, with the promotion or growth it may need. -/
theorem weakInsert_spec (fresh : ℕ → MalValue × V) (undefined : V) {slot : ℕ}
    {hash : BitVec 64} (hhash : s.buckets ≠ none → hash = keyHashMix key) (hfree : FreeSlot s key slot)
    (hnew : key ∉ l.map fst) (hlimit : l.length + 1 ≤ memberLimit) :
    ∃ t slot', weakInsert fresh undefined s key hash slot = some (t, slot') ∧
      Upserted t (l ++ [(key, undefined)]) key slot' := by
  obtain ⟨hle, hmax⟩ := members_le hI hlimit
  unfold weakInsert
  dsimp only
  generalize (if s.reserveSize > s.size + 1 then s.reserveSize else s.size + 1) = members at hle hmax
  split_ifs with hinline hmust
  · -- the row goes to the end of the inline rows
    rw [Bool.and_eq_true, isNone_iff_eq_none, decide_eq_true_eq] at hinline
    rw [hfree.inline hinline.1]
    exact ⟨_, _, rfl, weakInsert_inline hI hinline.1 hinline.2 hnew undefined⟩
  · -- the buckets are made or remade, and the key is searched again
    obtain ⟨k, hcap, hfits⟩ := weakCapacity_spec hmax
    have hfits' := hashIndexFits_mono hle hfits
    obtain ⟨index, hrebuild, hh⟩ := weakRebuild_spec hI fresh (hashIndexFits_mono (Nat.le_succ _) hfits')
    have hI' : WeakInv { s with buckets := some index, deleted := 0, reserveSize := 0 } l :=
      .of_holds hI.nodup rfl hh hI.size hI.limit (Nat.zero_le _)
    obtain ⟨slot', hfind, hout⟩ := weakFind_hashed hI' rfl key
    cases hout with
    | found _ _ hkey hmem => exact absurd (hkey ▸ List.mem_map_of_mem hmem) hnew
    | absent hfree' _ =>
      have hvac := hfree'.hashed index rfl k hh.cap
      obtain ⟨t, hplace, hup⟩ := weakPlace_spec hI' rfl hh hvac hnew undefined (by simpa using hfits') hlimit
      refine ⟨t, slot', ?_, hup⟩
      simp only [hcap, hrebuild, hfind, bind_eq_bind, bind_some]
      exact hplace
  -- the buckets have room
  cases hb : s.buckets with
  | none => rw [weakMustRebuild, hb] at hmust; exact absurd rfl hmust
  | some index =>
    obtain ⟨k, hh⟩ := hI.hashed index hb
    have hvac := hfree.hashed index hb k hh.cap
    rw [weakMustRebuild, hb] at hmust
    obtain ⟨t, hplace, hup⟩ := weakPlace_spec hI hb hh hvac hnew undefined (by
      have htomb : (deletedCtrl (index.controls slot)).toNat ≤ s.deleted := by
        cases hd : deletedCtrl (index.controls slot) with
        | false => exact Nat.zero_le _
        | true => exact hh.tomb_pos hvac.lt (deletedCtrl_iff.1 hd)
      simp only [Bool.not_eq_true, Bool.not_eq_false', hh.cap, hashIndexFits, decide_eq_true_eq] at hmust
      rw [hashIndexFits, decide_eq_true_eq]
      change _ + s.deleted - (deletedCtrl (index.controls slot)).toNat ≤ _ at hmust
      omega) hlimit
    exact ⟨t, slot, by rw [hhash (by simp [hb])]; exact hplace, hup⟩

def upsertRows (undefined : V) (l : List (MalValue × V)) (key : MalValue) : List (MalValue × V) :=
  if contains l key then l else l ++ [(key, undefined)]

theorem weakUpsert_spec (fresh : ℕ → MalValue × V) (undefined : V) (key : MalValue)
    (hlimit : l.length + 1 ≤ memberLimit) :
    ∃ t slot, weakUpsert fresh undefined s key = some (t, slot, !contains l key) ∧
      Upserted t (upsertRows undefined l key) key slot := by
  obtain ⟨slot, hfind, hout⟩ := weakFind_spec hI key
  unfold weakUpsert upsertRows
  simp only [hfind, bind_some]
  cases hout with
  | found hlt hlive hkey hmem =>
    have hc : contains l key = true := contains_iff.2 (hkey ▸ List.mem_map_of_mem hmem)
    rw [if_pos hlive, hc]
    exact ⟨s, slot, rfl, hI, hlt, hlive, hkey⟩
  | absent hfree hnew =>
    have hc : contains l key = false := by rw [← Bool.not_eq_true, contains_iff]; exact hnew
    have hhash : s.buckets ≠ none → (if s.buckets.isNone then 0 else keyHashMix key) = keyHashMix key :=
      fun h => if_neg (by simpa using h)
    obtain ⟨t, slot', hins, hup⟩ := weakInsert_spec hI fresh undefined hhash hfree hnew hlimit
    rw [if_neg (by simp [hfree.dead]), hins, hc]
    exact ⟨t, slot', rfl, hup⟩

/-! ## Erasing -/

theorem erase_eq {row : MalValue × V} (hmem : row ∈ l) : l.erase row = Rows.erase l row.1 := by
  rw [hI.nodupRows.erase_eq_filter]
  refine List.filter_congr fun p hp => ?_
  rw [Bool.eq_iff_iff, bne_iff_ne, decide_eq_true_eq]
  exact not_congr ⟨fun h => h ▸ rfl, fun h => List.inj_on_of_nodup_map hI.nodup hp hmem h⟩

end

omit [DecidableEq V] in
theorem swap_last_perm (f : ℕ → MalValue × V) {n slot : ℕ} (hslot : slot < n) : ((List.range n).map f).Perm (f slot ::
      (List.range (n - 1)).map (if slot + 1 ≠ n then update f slot (f (n - 1)) else f)) := by
  obtain ⟨m, rfl⟩ := Nat.exists_eq_succ_of_ne_zero (by omega : n ≠ 0)
  rw [Nat.succ_eq_add_one, List.range_succ, List.map_append, Nat.add_sub_cancel]
  split_ifs with hlast
  · have hlt : slot < m := by omega
    have hlen : slot < ((List.range m).map f).length := by simpa using hlt
    have hset : (List.range m).map (update f slot (f m)) = ((List.range m).map f).set slot (f m) := by
      refine List.ext_getElem? fun j => ?_
      rw [List.getElem?_set, List.getElem?_map, List.getElem?_map]
      split_ifs with hj
      · subst hj
        simp [hlt]
      by_cases hjm : j < m
      · simp [List.getElem?_range hjm, update_of_ne (Ne.symm hj)]
      · rw [List.getElem?_eq_none_iff.2 (by simpa using hjm)]
        rfl
    have hget : ((List.range m).map f)[slot] = f slot := by simp
    rw [hset]
    calc ((List.range m).map f) ++ [f m]
        _ |>.Perm (f m :: (List.range m).map f) := List.perm_append_singleton _ _
        _ |>.Perm (f m :: f slot :: ((List.range m).map f).eraseIdx slot) := by
          rw [← hget]
          exact (List.getElem_cons_eraseIdx_perm hlen).symm.cons _
        _ |>.Perm (f slot :: f m :: ((List.range m).map f).eraseIdx slot) := List.Perm.swap _ _ _
        _ |>.Perm (f slot :: ((List.range m).map f).set slot (f m)) :=
          (List.set_perm_cons_eraseIdx hlen _).symm.cons _
  · have hm : slot = m := by omega
    subst hm
    exact List.perm_append_singleton _ _

theorem weakErase_spec (hI : WeakInv s l) {slot : ℕ} (hlt : slot < weakStorageScanSlots s)
    (hlive : weakLive s slot = true) : WeakInv (weakErase s slot) (Rows.erase l (weakRow s slot).1) := by
  have hmem := hI.row_mem hlt hlive
  rw [← erase_eq hI hmem]
  have hnd : ((l.erase (weakRow s slot)).map fst).Nodup := hI.nodup.sublist (List.erase_sublist.map _)
  have hlen : (l.erase (weakRow s slot)).length = l.length - 1 := List.length_erase_of_mem hmem
  have hlimit : (l.erase (weakRow s slot)).length ≤ memberLimit := by
    have := hI.limit
    omega
  unfold weakErase
  cases hb : s.buckets with
  | none =>
    have hslot : slot < s.size := scanSlots_inline hb ▸ hlt
    have hrows := hI.rows
    rw [weakRows_inline hb] at hrows
    refine .of_inline hnd rfl ?_ ((Nat.sub_le _ _).trans (hI.inline hb)) hI.reserve
    refine List.Perm.cons_inv ((swap_last_perm s.small hslot).symm.trans (hrows.trans ?_))
    rw [← weakRow_inline hb]
    exact List.perm_cons_erase hmem
  | some index =>
    obtain ⟨k, hh⟩ := hI.hashed index hb
    rw [scanSlots_hashed hb, hh.cap] at hlt
    have hh' := hh.erase hlt ((weakLive_hashed hb).1 hlive)
    have hfin : (l.erase (weakRow s slot)).toFinset = l.toFinset.erase (index.slots slot) := by
      ext row
      rw [List.mem_toFinset, hI.nodupRows.mem_erase_iff, Finset.mem_erase, List.mem_toFinset, weakRow_hashed hb]
    rw [← hfin] at hh'
    refine .of_holds hnd rfl hh' ?_ hlimit hI.reserve
    rw [hlen, ← hI.size]

/-! ## Retaining -/

def keptRows (keep : MalValue → Bool) (l : List (MalValue × V)) : List (MalValue × V) := l.filter fun p => keep p.1

omit [DecidableEq V] in
theorem keptRows_erase (hk : keep key = false) : keptRows keep (Rows.erase l key) = keptRows keep l := by
  rw [keptRows, Rows.erase, List.filter_filter]
  refine List.filter_congr fun p _ => ?_
  by_cases hp : p.1 = key
  · simp [hp, hk]
  · simp [hp]

theorem keptRows_eq_self (hI : WeakInv s l)
    (h : ∀ i < weakStorageScanSlots s, weakLive s i = true → keep (weakRow s i).1 = true) : keptRows keep l = l := by
  rw [keptRows, List.filter_eq_self]
  intro p hp
  rw [← hI.rows.mem_iff, weakRows, mem_entries] at hp
  obtain ⟨i, hi, hrow⟩ := hp
  obtain ⟨hl, rfl⟩ := weakRowAt_eq_some.1 hrow
  exact h i hi hl

omit [DecidableEq V] in
theorem weakErase_inline (hb : s.buckets = none) (slot : ℕ) :
    (weakErase s slot).buckets = none ∧ (weakErase s slot).size = s.size - 1 ∧
      ∀ i < slot, (weakErase s slot).small i = s.small i := by
  unfold weakErase
  rw [hb]
  refine ⟨rfl, rfl, fun i hi => ?_⟩
  split_ifs
  · exact update_of_ne hi.ne _ _
  · rfl

/-- **The inline scan.** Below `i` all rows are kept; what the scan erases it replaces by a row it has not seen. -/
theorem weakRetainInline_spec (keep : MalValue → Bool) (fuel i : ℕ) (s : MalWeakStorage V) (l : List (MalValue × V))
    (hI : WeakInv s l) (hb : s.buckets = none) (hf : s.size ≤ i + fuel) (hkept : ∀ j < i, keep (s.small j).1 = true) :
    WeakInv (weakRetainInline keep fuel i s) (keptRows keep l) := by
  induction fuel generalizing i s l with
  | zero =>
    have hscan := scanSlots_inline hb
    rw [keptRows_eq_self hI]
    · exact hI
    · intro j hj _
      rw [weakRow_inline hb]
      exact hkept j (by omega)
  | succ fuel ih =>
    have hscan := scanSlots_inline hb
    rw [weakRetainInline]
    split_ifs with hi hk
    · refine ih (i + 1) s l hI hb (by omega) fun j hj => ?_
      rcases Nat.lt_succ_iff_lt_or_eq.1 hj with hlt | rfl
      · exact hkept j hlt
      · exact weakRow_inline hb _ ▸ hk
    · have hli := (weakLive_inline hb).2 hi
      obtain ⟨hb', hsize, hsame⟩ := weakErase_inline hb i
      rw [← keptRows_erase (l := l) (Bool.not_eq_true _ ▸ hk)]
      exact ih i _ _ (weakErase_spec hI (hscan ▸ hi) hli) hb' (by omega) fun j hj => by
        rw [hsame j hj]
        exact hkept j hj
    · rw [keptRows_eq_self hI]
      · exact hI
      · intro j hj _
        rw [weakRow_inline hb]
        exact hkept j (by omega)

structure Retaining (keep : MalValue → Bool) (capacity : ℕ) (l : List (MalValue × V)) (i : ℕ) (t : MalWeakStorage V) :
    Prop where
  rows : ∃ l', WeakInv t l' ∧ keptRows keep l' = keptRows keep l
  buckets : ∃ index, t.buckets = some index ∧ index.capacity = capacity
  seen : ∀ j < i, weakLive t j = true → keep (weakRow t j).1 = true

omit [DecidableEq V] in
theorem weakErase_hashed (hb : s.buckets = some index) (slot : ℕ) :
    (∃ index', (weakErase s slot).buckets = some index' ∧ index'.capacity = index.capacity) ∧
      ∀ j, weakLive (weakErase s slot) j = true →
        j ≠ slot ∧ weakLive s j = true ∧ weakRow (weakErase s slot) j = weakRow s j := by
  have hbuckets : (weakErase s slot).buckets = some (hashIndexErase index slot).1 := by rw [weakErase, hb]
  refine ⟨⟨_, hbuckets, rfl⟩, fun j hj => ?_⟩
  have hctrl : (hashIndexErase index slot).1.controls = update index.controls slot
      (if (hashControlsErase index.controls slot).2 then hashDeleted else hashEmpty) := rfl
  rw [weakLive_hashed hbuckets, hctrl] at hj
  have hne : j ≠ slot := by
    rintro rfl
    rw [update_self] at hj
    split_ifs at hj
    · exact absurd hj (by decide)
    · exact absurd hj (lt_irrefl _)
  rw [update_of_ne hne] at hj
  refine ⟨hne, (weakLive_hashed hb).2 hj, ?_⟩
  rw [weakRow_hashed hbuckets, weakRow_hashed hb]
  rfl

theorem Retaining.step {capacity i : ℕ} {t : MalWeakStorage V}
    (h : Retaining keep capacity l i t) (hi : i < capacity) : Retaining keep capacity l (i + 1) (weakRetainBucket keep t i) := by
  obtain ⟨⟨l', hI, hl'⟩, ⟨index, hb, hcap⟩, hseen⟩ := h
  rw [weakRetainBucket]
  split_ifs with hgo
  · rw [Bool.and_eq_true, Bool.not_eq_true'] at hgo
    obtain ⟨⟨index', hb', hcap'⟩, hother⟩ := weakErase_hashed hb i
    have hlt : i < weakStorageScanSlots t := by rw [scanSlots_hashed hb, hcap]; exact hi
    refine ⟨⟨_, weakErase_spec hI hlt hgo.1, by rw [keptRows_erase hgo.2, hl']⟩, ⟨index', hb', hcap'.trans hcap⟩, ?_⟩
    intro j hj hlj
    obtain ⟨hne, hl, hrow⟩ := hother j hlj
    rw [hrow]
    exact hseen j (by omega) hl
  · refine ⟨⟨l', hI, hl'⟩, ⟨index, hb, hcap⟩, fun j hj hlj => ?_⟩
    rcases Nat.lt_succ_iff_lt_or_eq.1 hj with hlt | rfl
    · exact hseen j hlt hlj
    by_contra hk
    rw [Bool.not_eq_true] at hk
    exact hgo (by rw [hlj, hk]; rfl)

theorem weakRetainBuckets_spec (hI : WeakInv s l) (hb : s.buckets = some index) (keep : MalValue → Bool) :
    WeakInv ((List.range index.capacity).foldl (weakRetainBucket keep) s) (keptRows keep l) := by
  have hscan : ∀ n ≤ index.capacity, Retaining keep index.capacity l n ((List.range n).foldl (weakRetainBucket keep) s) := by
    intro n
    induction n with
    | zero => exact fun _ => ⟨⟨l, hI, rfl⟩, ⟨index, hb, rfl⟩, nofun⟩
    | succ n ih =>
      intro hn
      rw [List.range_succ, List.foldl_append]
      exact (ih (by omega)).step (by omega)
  obtain ⟨⟨l', hI', hl'⟩, ⟨index', hb', hcap⟩, hseen⟩ := hscan _ le_rfl
  rw [← hl', keptRows_eq_self hI']
  · exact hI'
  · intro j hj
    rw [scanSlots_hashed hb'] at hj
    exact hseen j (hcap ▸ hj)

theorem weakRetain_spec (hI : WeakInv s l) (fresh : ℕ → MalValue × V) (keep : MalValue → Bool) :
    ∃ t, weakRetain fresh keep (some s) = some (some t, l.length - (keptRows keep l).length) ∧
      WeakInv t (keptRows keep l) := by
  have hI' : WeakInv (weakRetainRows keep s) (keptRows keep l) := by
    unfold weakRetainRows
    cases hb : s.buckets with
    | none => exact weakRetainInline_spec keep s.size 0 s l hI hb (by omega) nofun
    | some index => exact weakRetainBuckets_spec hI hb keep
  have hremoved : s.size - (weakRetainRows keep s).size = l.length - (keptRows keep l).length := by
    rw [hI.size, hI'.size]
  simp only [weakRetain, hremoved]
  split_ifs
  · obtain ⟨t, ht, hIt⟩ := weakMaintain_spec hI' fresh true
    exact ⟨t, by rw [ht]; rfl, hIt⟩
  · exact ⟨_, rfl, hI'⟩

/-! ## Lookup, delete and reserve -/

inductive LookupOutcome (s : MalWeakStorage V) (l : List (MalValue × V)) (key : MalValue) : Option ℕ → Prop
  | found {slot : ℕ} (hlt : slot < weakStorageScanSlots s) (hlive : weakLive s slot = true)
      (hkey : (weakRow s slot).1 = key) (hmem : weakRow s slot ∈ l) : LookupOutcome s l key (some slot)
  | absent (hnew : key ∉ l.map fst) : LookupOutcome s l key none

/-- **Lookup.** A key that cannot be held is not found without a search, and is not there. -/
theorem weakLookup_spec (hI : WeakInv s l) {registered : MalValue → Bool}
    (hheld : ∀ p ∈ l, weakKeyCanBeHeld registered p.1 = true) (key : MalValue) :
    ∃ slot, weakLookup registered (some s) key = some slot ∧ LookupOutcome s l key slot := by
  obtain ⟨slot, hfind, hout⟩ := weakFind_spec hI key
  unfold weakLookup
  dsimp only
  rw [hfind, map_some]
  by_cases hnone : (decide (s.size = 0) || !weakKeyCanBeHeld registered key) = true
  · rw [if_pos hnone]
    refine ⟨none, rfl, .absent fun hmem => ?_⟩
    obtain ⟨p, hp, rfl⟩ := List.mem_map.1 hmem
    rw [Bool.or_eq_true, decide_eq_true_eq, hheld p hp, hI.size, List.length_eq_zero_iff] at hnone
    rcases hnone with rfl | h
    · cases hp
    · cases h
  · rw [if_neg hnone]
    cases hout with
    | found hlt hlive hkey hmem => exact ⟨some slot, by rw [if_pos hlive], .found hlt hlive hkey hmem⟩
    | absent hfree hnew => exact ⟨none, by rw [if_neg (by simp [hfree.dead])], .absent hnew⟩

theorem weakDelete_spec (hI : WeakInv s l) {registered : MalValue → Bool}
    (hheld : ∀ p ∈ l, weakKeyCanBeHeld registered p.1 = true) (fresh : ℕ → MalValue × V) (key : MalValue) :
    ∃ t, weakDelete registered fresh (some s) key = some (some t, contains l key) ∧ WeakInv t (Rows.erase l key) := by
  obtain ⟨slot, hlookup, hout⟩ := weakLookup_spec hI hheld key
  rw [weakDelete, hlookup]
  cases hout with
  | found hlt hlive hkey hmem =>
    obtain ⟨t, ht, hIt⟩ := weakMaintain_spec (weakErase_spec hI hlt hlive) fresh false
    have hc : contains l key = true := contains_iff.2 (hkey ▸ List.mem_map_of_mem hmem)
    refine ⟨t, ?_, hkey ▸ hIt⟩
    simp only [bind_some, ht, hc, map_some]
  | absent hnew =>
    have hc : contains l key = false := by rw [← Bool.not_eq_true, contains_iff]; exact hnew
    refine ⟨s, by rw [hc]; rfl, ?_⟩
    rw [erase_of_not_contains hc]
    exact hI

theorem weakInv_storageNew (fresh : ℕ → MalValue × V) : WeakInv (weakStorageNew fresh) [] :=
  .of_inline List.nodup_nil rfl (List.Perm.refl _) (Nat.zero_le _) (Nat.zero_le _)

theorem weakReserve_spec (hI : WeakInv s l) (fresh : ℕ → MalValue × V) (desiredSize : ℕ) :
    ∃ t, weakReserve fresh (some s) desiredSize = some (some t, decide (desiredSize ≤ memberLimit)) ∧ WeakInv t l := by
  by_cases hd : desiredSize ≤ memberLimit
  · obtain ⟨k, hcap, hfits⟩ := weakCapacity_spec hd
    rw [decide_eq_true hd]
    simp only [weakReserve, hcap, any_some, getD_some]
    split_ifs with htriv
    · exact ⟨s, rfl, hI⟩
    cases hb : s.buckets with
    | none =>
      have hrows := hI.rows
      rw [weakRows_inline hb] at hrows
      exact ⟨_, rfl, .of_inline hI.nodup rfl hrows (hI.inline hb) (max_le hI.reserve hd)⟩
    | some index =>
      dsimp only
      split_ifs with hgrow
      · simp only [Bool.or_eq_true, decide_eq_true_eq] at htriv
        have hlen := hI.size
        obtain ⟨t, ht, hIt⟩ := weakRebuild_inv hI fresh (hashIndexFits_mono (by omega) hfits)
        exact ⟨t, by rw [ht]; rfl, hIt⟩
      · exact ⟨s, rfl, hI⟩
  · rw [decide_eq_false hd, weakReserve, weakCapacity, collectionSlotCapacity_eq_none (by omega)]
    exact ⟨s, rfl, hI⟩

end Maligator.Weak
