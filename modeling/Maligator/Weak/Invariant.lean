/-
What a weak storage holds.

`WeakInv s l`: the storage is well formed and its live rows are those of the association list `l`, in any order. The order
of the rows has no meaning, so every lemma about an operation gives the list of the new storage up to a permutation.

`weakSetValue_spec`: a value is overwritten in place.
-/
import Maligator.Weak.Storage

namespace Maligator.Weak

open HashIndex List Rows

variable {V : Type} [DecidableEq V]

structure WeakInv (s : MalWeakStorage V) (l : List (MalValue × V)) : Prop where
  nodup : (l.map Prod.fst).Nodup
  rows : (weakRows s).Perm l
  size : s.size = l.length
  limit : l.length ≤ memberLimit
  reserve : s.reserveSize ≤ memberLimit
  inline : s.buckets = none → s.size ≤ weakInlineCapacity
  hashed : ∀ index, s.buckets = some index → ∃ k, Holds k rowHash index s.deleted l.toFinset

section Rows

variable {s : MalWeakStorage V} {l : List (MalValue × V)} {index : MalHashIndex (MalValue × V)}

omit [DecidableEq V] in
theorem weakRowAt_eq_some {i : ℕ} {row : MalValue × V} :
    weakRowAt s i = some row ↔ weakLive s i = true ∧ weakRow s i = row := by
  rw [weakRowAt]
  split_ifs with h
  · simp [h]
  · simp [h]

section Inline

variable (hb : s.buckets = none)
include hb

omit [DecidableEq V]

theorem scanSlots_inline : weakStorageScanSlots s = s.size := by rw [weakStorageScanSlots, hb]

theorem weakRow_inline (i : ℕ) : weakRow s i = s.small i := by rw [weakRow, hb]

theorem weakLive_inline {i : ℕ} : weakLive s i = true ↔ i < s.size := by rw [weakLive, hb, decide_eq_true_iff]

theorem weakRows_inline : weakRows s = (List.range s.size).map s.small := by
  rw [weakRows, scanSlots_inline hb, ← filterMap_eq_map]
  refine filterMap_congr fun i hi => ?_
  rw [weakRowAt, if_pos ((weakLive_inline hb).2 (mem_range.1 hi)), weakRow_inline hb]
  rfl

end Inline

section Hashed

variable (hb : s.buckets = some index)
include hb

omit [DecidableEq V]

theorem scanSlots_hashed : weakStorageScanSlots s = index.capacity := by rw [weakStorageScanSlots, hb]

theorem weakRow_hashed (i : ℕ) : weakRow s i = index.slots i := by rw [weakRow, hb]

theorem weakLive_hashed {i : ℕ} : weakLive s i = true ↔ index.controls i < hashEmpty := by
  rw [weakLive, hb, decide_eq_true_iff]

theorem mem_weakRows_hashed {row : MalValue × V} :
    row ∈ weakRows s ↔ ∃ b < index.capacity, index.controls b < hashEmpty ∧ index.slots b = row := by
  rw [weakRows, scanSlots_hashed hb, mem_entries]
  refine exists_congr fun b => and_congr_right fun _ => ?_
  rw [weakRowAt_eq_some, weakLive_hashed hb, weakRow_hashed hb]

end Hashed

theorem weakRows_of_holds {k deleted : ℕ} (hb : s.buckets = some index)
    (hh : Holds k rowHash index deleted l.toFinset) (hl : l.Nodup) : (weakRows s).Perm l := by
  have hnodup : (weakRows s).Nodup := by
    have hpair : (List.range (16 * 2 ^ k)).Pairwise fun i j => i < j ∧ j < 16 * 2 ^ k :=
      List.pairwise_lt_range.imp_of_mem fun _ hj hij => ⟨hij, mem_range.1 hj⟩
    rw [weakRows, scanSlots_hashed hb, hh.cap]
    refine hpair.filterMap _ fun i j hij r hr r' hr' => ?_
    obtain ⟨hli, rfl⟩ := weakRowAt_eq_some.1 hr
    obtain ⟨hlj, rfl⟩ := weakRowAt_eq_some.1 hr'
    rw [weakLive_hashed hb] at hli hlj
    rw [weakRow_hashed hb, weakRow_hashed hb]
    intro heq
    exact absurd (hh.inj i (hij.1.trans hij.2) j hij.2 hli hlj heq) hij.1.ne
  rw [perm_ext_iff_of_nodup hnodup hl]
  intro row
  rw [mem_weakRows_hashed hb, ← mem_toFinset]
  constructor
  · rintro ⟨b, hlt, hlive, rfl⟩
    exact hh.mem b (hh.cap ▸ hlt) hlive
  · intro hmem
    obtain ⟨b, hlt, hlive, heq⟩ := hh.bucket row hmem
    exact ⟨b, hh.cap ▸ hlt, hlive, heq⟩

namespace WeakInv

theorem nodupRows (hI : WeakInv s l) : l.Nodup := List.Nodup.of_map _ hI.nodup

theorem of_holds {k : ℕ} (hnd : (l.map Prod.fst).Nodup)
    (hb : s.buckets = some index) (hh : Holds k rowHash index s.deleted l.toFinset) (hsize : s.size = l.length)
    (hlimit : l.length ≤ memberLimit) (hreserve : s.reserveSize ≤ memberLimit) : WeakInv s l where
  nodup := hnd
  rows := weakRows_of_holds hb hh (List.Nodup.of_map _ hnd)
  size := hsize
  limit := hlimit
  reserve := hreserve
  inline h := by rw [hb] at h; cases h
  hashed index' h := by
    rw [hb, Option.some.injEq] at h
    exact ⟨k, h ▸ hh⟩

theorem of_inline (hnd : (l.map Prod.fst).Nodup) (hb : s.buckets = none)
    (hrows : ((List.range s.size).map s.small).Perm l) (hsize : s.size ≤ weakInlineCapacity)
    (hreserve : s.reserveSize ≤ memberLimit) : WeakInv s l where
  nodup := hnd
  rows := by rw [weakRows_inline hb]; exact hrows
  size := by simpa using hrows.length_eq
  limit := by
    have hlen : s.size = l.length := by simpa using hrows.length_eq
    rw [weakInlineCapacity] at hsize
    rw [memberLimit]
    omega
  reserve := hreserve
  inline _ := hsize
  hashed index h := by rw [hb] at h; cases h

theorem card (hI : WeakInv s l) : l.toFinset.card = l.length := toFinset_card_of_nodup hI.nodupRows

theorem row_mem (hI : WeakInv s l) {i : ℕ} (hi : i < weakStorageScanSlots s) (hlive : weakLive s i = true) :
    weakRow s i ∈ l :=
  hI.rows.mem_iff.1 (mem_entries.2 ⟨i, hi, weakRowAt_eq_some.2 ⟨hlive, rfl⟩⟩)

theorem slot_unique (hI : WeakInv s l) {i j : ℕ} (hi : i < weakStorageScanSlots s) (hj : j < weakStorageScanSlots s)
    (hli : weakLive s i = true) (hlj : weakLive s j = true) (h : (weakRow s i).1 = (weakRow s j).1) : i = j := by
  have hu : ((weakRows s).map Prod.fst).Nodup := (hI.rows.map Prod.fst).nodup_iff.2 hI.nodup
  exact position_unique hu hi hj (k := (weakRow s i).1) (v := (weakRow s i).2) (w := (weakRow s j).2)
    (weakRowAt_eq_some.2 ⟨hli, rfl⟩) (weakRowAt_eq_some.2 ⟨hlj, Prod.ext h.symm rfl⟩)

end WeakInv

end Rows

/-! ## Searching -/

structure FreeSlot (s : MalWeakStorage V) (key : MalValue) (slot : ℕ) : Prop where
  dead : weakLive s slot = false
  inline : s.buckets = none → slot = s.size
  hashed : ∀ index, s.buckets = some index → ∀ k, index.capacity = 16 * 2 ^ k → Holds.Vacant k index (keyHashMix key) slot

inductive FindOutcome (s : MalWeakStorage V) (l : List (MalValue × V)) (key : MalValue) (slot : ℕ) : Prop
  | found (hlt : slot < weakStorageScanSlots s) (hlive : weakLive s slot = true) (hkey : (weakRow s slot).1 = key)
      (hmem : weakRow s slot ∈ l)
  | absent (hfree : FreeSlot s key slot) (hnew : key ∉ l.map Prod.fst)

section Find

variable {s : MalWeakStorage V} {l : List (MalValue × V)}

theorem weakFind_inline (hI : WeakInv s l) (hb : s.buckets = none) (key : MalValue) (hash : BitVec 64) :
    ∃ slot, weakFind s key hash = some slot ∧ FindOutcome s l key slot := by
  have hscan := scanSlots_inline hb
  rw [weakFind, hb]
  refine ⟨_, rfl, ?_⟩
  cases hf : (List.range s.size).find? fun i => (s.small i).1 == key with
  | some i =>
    have hi : i < s.size := mem_range.1 (mem_of_find?_eq_some hf)
    have hli := (weakLive_inline hb).2 hi
    exact .found (hscan ▸ hi) hli (by rw [weakRow_inline hb]; simpa using find?_some hf) (hI.row_mem (hscan ▸ hi) hli)
  | none =>
    have hdead : weakLive s s.size = false := Bool.eq_false_iff.2 fun h => lt_irrefl _ ((weakLive_inline hb).1 h)
    refine .absent ⟨hdead, fun _ => rfl, fun index h => by rw [hb] at h; cases h⟩ ?_
    intro hmem
    obtain ⟨row, hrow', rfl⟩ := mem_map.1 hmem
    rw [← hI.rows.mem_iff, weakRows_inline hb] at hrow'
    obtain ⟨i, hi, rfl⟩ := mem_map.1 hrow'
    exact absurd (find?_eq_none.1 hf i hi) (by simp)

theorem weakFind_hashed (hI : WeakInv s l) {index : MalHashIndex (MalValue × V)} (hb : s.buckets = some index)
    (key : MalValue) : ∃ slot, weakFind s key (keyHashMix key) = some slot ∧ FindOutcome s l key slot := by
  obtain ⟨k, hh⟩ := hI.hashed index hb
  have hscan : weakStorageScanSlots s = 16 * 2 ^ k := (scanSlots_hashed hb).trans hh.cap
  have hrow := weakRow_hashed hb
  have hhash : ∀ row ∈ l.toFinset, (row.1 == key) = true → rowHash row = keyHashMix key := fun row _ hhit => by
    rw [rowHash, beq_iff_eq.1 hhit]
  obtain ⟨b, hlt, hsearch, hout⟩ := hh.find (fun row => row.1 == key) hhash
  refine ⟨b, by rw [weakFind, hb]; simp only [hsearch, Option.join_some], ?_⟩
  rcases hout with ⟨hlive, hmem, hhit⟩ | ⟨hvac, hmiss⟩
  · exact .found (hscan ▸ hlt) ((weakLive_hashed hb).2 hlive) (by rw [hrow]; exact beq_iff_eq.1 hhit) (by rw [hrow]; exact mem_toFinset.1 hmem)
  refine .absent ⟨?_, fun h => absurd (hb.symm.trans h) (by simp), ?_⟩ ?_
  · exact Bool.eq_false_iff.2 fun h => hvac.not_live ((weakLive_hashed hb).1 h)
  · intro index' hb' k' hcap
    rw [hb, Option.some.injEq] at hb'
    subst hb'
    have hk : k = k' := Nat.pow_right_injective le_rfl (by rw [hh.cap] at hcap; simpa using hcap)
    exact hk ▸ hvac
  · intro hmem
    obtain ⟨row, hmem, hkey⟩ := mem_map.1 hmem
    have := hmiss row (mem_toFinset.2 hmem)
    rw [beq_eq_false_iff_ne] at this
    exact this hkey

/-- **Search.** The hash is only needed, and only computed, when there are buckets. -/
theorem weakFind_spec (hI : WeakInv s l) (key : MalValue) :
    ∃ slot, weakFind s key (if s.buckets.isNone then 0 else keyHashMix key) = some slot ∧ FindOutcome s l key slot := by
  cases hb : s.buckets with
  | none => exact weakFind_inline hI hb key _
  | some index => exact weakFind_hashed hI hb key

end Find

/-! ## Rewriting rows in place -/

def withValue (key : MalValue) (value : V) (row : MalValue × V) : MalValue × V :=
  if row.1 = key then (key, value) else row

omit [DecidableEq V] in
theorem withValue_fst (key : MalValue) (value : V) (row : MalValue × V) : (withValue key value row).1 = row.1 := by
  rw [withValue]
  split_ifs with h
  · exact h.symm
  · rfl

omit [DecidableEq V] in
theorem keys_withValue (key : MalValue) (value : V) (l : List (MalValue × V)) :
    (l.map (withValue key value)).map Prod.fst = l.map Prod.fst := by
  rw [map_map]
  exact map_congr_left fun row _ => withValue_fst key value row

section SetValue

variable {s : MalWeakStorage MalValue} {l : List (MalValue × MalValue)} {slot : ℕ} (hI : WeakInv s l)
  (hlt : slot < weakStorageScanSlots s) (hlive : weakLive s slot = true) (value : MalValue)

include hI hlt hlive

theorem withValue_row {i : ℕ} (hi : i < weakStorageScanSlots s) (hl : weakLive s i = true) :
    withValue (weakRow s slot).1 value (weakRow s i) =
      if i = slot then ((weakRow s slot).1, value) else weakRow s i := by
  split_ifs with h
  · subst h
    exact if_pos rfl
  · exact if_neg fun heq => h (hI.slot_unique hi hlt hl hlive heq)

theorem weakSetValue_inline (hb : s.buckets = none) :
    WeakInv { s with small := Function.update s.small slot ((s.small slot).1, value) }
      (l.map (withValue (weakRow s slot).1 value)) := by
  have hrow := weakRow_inline hb
  have hrows := hI.rows.map (withValue (weakRow s slot).1 value)
  rw [weakRows_inline hb, map_map] at hrows
  refine .of_inline (by rw [keys_withValue]; exact hI.nodup) hb ?_ (hI.inline hb) hI.reserve
  refine (List.Perm.of_eq (map_congr_left fun i hi => ?_)).trans hrows
  have hi' : i < s.size := mem_range.1 hi
  have hw := withValue_row hI hlt hlive value (scanSlots_inline hb ▸ hi') ((weakLive_inline hb).2 hi')
  simp only [hrow] at hw
  rw [Function.comp_apply, hrow, hw]
  exact Function.update_apply _ _ _ _

theorem weakSetValue_hashed {index : MalHashIndex (MalValue × MalValue)} (hb : s.buckets = some index) :
    WeakInv { s with buckets := some { index with
        slots := Function.update index.slots slot ((index.slots slot).1, value) } }
      (l.map (withValue (weakRow s slot).1 value)) := by
  obtain ⟨k, hh⟩ := hI.hashed index hb
  have hscan : weakStorageScanSlots s = 16 * 2 ^ k := (scanSlots_hashed hb).trans hh.cap
  have hrow := weakRow_hashed hb
  refine .of_holds (k := k) (by rw [keys_withValue]; exact hI.nodup) rfl ?_ (by rw [length_map]; exact hI.size)
    (by rw [length_map]; exact hI.limit) hI.reserve
  have himage : (l.map (withValue (weakRow s slot).1 value)).toFinset =
      l.toFinset.image (withValue (weakRow s slot).1 value) := by
    ext row
    simp
  rw [himage]
  refine hh.replace ?_ ?_ ?_
  · intro b hb' hl
    have hw := withValue_row hI hlt hlive value (hscan ▸ hb') ((weakLive_hashed hb).2 hl)
    simp only [hrow] at hw
    rw [hrow, hw]
    exact Function.update_apply _ _ _ _
  · exact fun row _ => by rw [rowHash, rowHash, withValue_fst]
  · intro p hp q hq heq
    refine inj_on_of_nodup_map hI.nodup (mem_toFinset.1 hp) (mem_toFinset.1 hq) ?_
    rw [← withValue_fst (weakRow s slot).1 value p, heq, withValue_fst]

theorem weakSetValue_spec : WeakInv (weakSetValue s slot value) (l.map (withValue (weakRow s slot).1 value)) := by
  unfold weakSetValue
  cases hb : s.buckets with
  | none =>
    have h := weakSetValue_inline hI hlt hlive value hb
    rwa [hb] at h
  | some index => exact weakSetValue_hashed hI hlt hlive value hb

end SetValue

end Maligator.Weak
