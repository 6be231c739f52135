/-
Runs of a grouped hash index: inserts, erases and rebuilds from an empty index.

The buckets hold keys of any type, hashed by any function. An insert puts a new key where `hashSearch` says: in the first
DELETED bucket met on its path, else in the first EMPTY bucket of the group that ended the search. An erase goes through
`mal_hash_controls_erase`. A rebuild fills a fresh index of any power-of-two capacity with the live keys in any order.
The only premise on a run is that live and deleted buckets stay within `mal_hash_index_fits`.
-/
import Maligator.HashIndexContents

namespace Maligator.HashIndex

open GroupTable

variable {K : Type}

def liveKeys (index : MalHashIndex K) : List K :=
  ((List.range index.capacity).filter (hashSlotLive index.controls)).map index.slots

def occupied (index : MalHashIndex K) : ℕ :=
  (liveKeys index).length + ((List.range index.capacity).filter fun b => index.controls b == hashDeleted).length

inductive IndexOp (K : Type) where
  | insert (key : K)
  | erase (key : K)
  | rebuild (k : ℕ) (order : List K)

variable [DecidableEq K]

/-- one operation; `none` is an abort -/
def indexStep (hash : K → BitVec 64) (index : MalHashIndex K) : IndexOp K → Option (MalHashIndex K)
  | .insert key => do
    let found ← hashSearch index.controls index.capacity (hash key) (fun b => index.slots b == key) true
    let slot ← found
    return if hashSlotLive index.controls slot then index else hashIndexInsert index slot key (hash key)
  | .erase key => do
    let found ← hashSearch index.controls index.capacity (hash key) (fun b => index.slots b == key) false
    return match found with
      | some slot => (hashIndexErase index slot).1
      | none => index
  | .rebuild k order => hashIndexFill hash (hashIndexReset index.slots (16 * 2 ^ k)) order

/-- what the caller owes: a rebuild lists the live keys once each and picks a capacity that fits them -/
def Allowed (index : MalHashIndex K) : IndexOp K → Prop
  | .insert _ => True
  | .erase _ => True
  | .rebuild k order => order.Perm (liveKeys index) ∧ hashIndexFits order.length (16 * 2 ^ k) = true

/-- the states of the runs that stay within `mal_hash_index_fits` -/
inductive Reachable (hash : K → BitVec 64) : MalHashIndex K → Prop
  | fresh (k : ℕ) (slots : ℕ → K) : Reachable hash (hashIndexReset slots (16 * 2 ^ k))
  | step {index index' : MalHashIndex K} (op : IndexOp K) (hr : Reachable hash index) (ha : Allowed index op)
      (hs : indexStep hash index op = some index') (hf : hashIndexFits (occupied index') index'.capacity = true) :
      Reachable hash index'

/-! ## The contents of a reachable index -/

theorem length_filter_range (p : ℕ → Bool) (f : ℕ → ℕ) (n : ℕ) :
    ((List.range n).filter fun b => p (f b)).length = count p f n := by
  rw [count, ← List.toFinset_card_of_nodup (List.nodup_range.filter _), List.toFinset_filter, List.toFinset_range]

omit [DecidableEq K] in
theorem occupied_eq_count (index : MalHashIndex K) :
    occupied index = count liveCtrl index.controls index.capacity + count deletedCtrl index.controls index.capacity := by
  rw [occupied, liveKeys, List.length_map, ← length_filter_range, ← length_filter_range]
  rfl

omit [DecidableEq K] in
theorem occupied_insert (index : MalHashIndex K) {b : ℕ} (hb : b < index.capacity) (hnl : ¬ index.controls b < hashEmpty)
    (key : K) (hash : BitVec 64) :
    occupied (hashIndexInsert index b key hash) = count liveCtrl index.controls index.capacity + 1 +
      (count deletedCtrl index.controls index.capacity - (deletedCtrl (index.controls b)).toNat) := by
  have hlive := count_update liveCtrl index.controls hb (hashTag hash)
  have hdel := count_update deletedCtrl index.controls hb (hashTag hash)
  rw [liveCtrl_iff.2 (hashTag_lt hash), Bool.eq_false_iff.2 (mt liveCtrl_iff.1 hnl)] at hlive
  rw [deletedCtrl_of_live (hashTag_lt hash)] at hdel
  simp only [Bool.toNat_false, Bool.toNat_true] at hlive hdel
  rw [occupied_eq_count]
  simp only [hashIndexInsert]
  omega

variable {index : MalHashIndex K} {hash : K → BitVec 64}

omit [DecidableEq K] in
theorem mem_liveKeys {key : K} :
    key ∈ liveKeys index ↔ ∃ b < index.capacity, index.controls b < hashEmpty ∧ index.slots b = key := by
  simp [liveKeys, hashSlotLive, and_assoc]

namespace Holds

variable {k deleted : ℕ} {members : Finset K}

omit [DecidableEq K] in
theorem mem_iff_liveKeys (h : Holds k hash index deleted members) {key : K} : key ∈ members ↔ key ∈ liveKeys index := by
  rw [mem_liveKeys, h.cap]
  constructor
  · exact h.bucket key
  · rintro ⟨b, hb, hl, rfl⟩
    exact h.mem b hb hl

omit [DecidableEq K] in
theorem nodup_liveKeys (h : Holds k hash index deleted members) : (liveKeys index).Nodup := by
  refine List.Nodup.map_on ?_ (List.nodup_range.filter _)
  intro b hb c hc heq
  simp only [List.mem_filter, List.mem_range, hashSlotLive, decide_eq_true_eq, h.cap] at hb hc
  exact h.inj b hb.1 c hc.1 hb.2 hc.2 heq

theorem hash_of_beq (hash : K → BitVec 64) (members : Finset K) (key : K) :
    ∀ e ∈ members, (e == key) = true → hash e = hash key := by
  intro e _ he
  rw [eq_of_beq he]

end Holds

def Sound (hash : K → BitVec 64) (index : MalHashIndex K) : Prop :=
  ∃ k deleted members, Holds k hash index deleted members

theorem sound_insert (h : Sound hash index) (key : K) : ∃ index', indexStep hash index (.insert key) = some index' ∧
      (hashIndexFits (occupied index') index'.capacity = true → Sound hash index') := by
  obtain ⟨k, deleted, members, h⟩ := h
  obtain ⟨b, hb, hsearch, hout⟩ := h.find (· == key) (Holds.hash_of_beq hash members key)
  simp only [indexStep, hsearch, Option.bind_eq_bind, Option.bind_some]
  rcases hout with ⟨hl, _⟩ | ⟨hvac, hmiss⟩
  · rw [if_pos (by simpa [hashSlotLive] using hl)]
    exact ⟨index, rfl, fun _ => ⟨k, deleted, members, h⟩⟩
  rw [if_neg (by simpa [hashSlotLive] using hvac.not_live)]
  refine ⟨_, rfl, fun hf => ?_⟩
  have hnew : key ∉ members := fun hmem => by simpa using hmiss key hmem
  rw [occupied_insert index (h.cap ▸ hb) hvac.not_live, h.cap, h.live_count, h.tombs] at hf
  exact ⟨k, _, _, h.insert hvac hnew (h.cap ▸ hf)⟩

theorem sound_erase (h : Sound hash index) (key : K) :
    ∃ index', indexStep hash index (.erase key) = some index' ∧ Sound hash index' := by
  obtain ⟨k, deleted, members, h⟩ := h
  obtain ⟨r, hsearch, hout⟩ := h.lookup (· == key) (Holds.hash_of_beq hash members key)
  simp only [indexStep, hsearch]
  cases r with
  | none => exact ⟨index, rfl, k, deleted, members, h⟩
  | some b => exact ⟨_, rfl, k, _, _, h.erase hout.1 hout.2.1⟩

theorem sound_rebuild (h : Sound hash index) {k : ℕ} {order : List K} (ha : Allowed index (.rebuild k order)) :
    ∃ index', indexStep hash index (.rebuild k order) = some index' ∧ Sound hash index' := by
  obtain ⟨_, _, members, h⟩ := h
  have hnd : order.Nodup := ha.1.nodup_iff.2 h.nodup_liveKeys
  obtain ⟨index', hfill, h'⟩ := Holds.rebuild k hash index.slots hnd ha.2
  exact ⟨index', hfill, k, _, _, h'⟩

theorem sound_step (h : Sound hash index) {op : IndexOp K} (ha : Allowed index op) :
    ∃ index', indexStep hash index op = some index' ∧
      (hashIndexFits (occupied index') index'.capacity = true → Sound hash index') := by
  cases op with
  | insert key => exact sound_insert h key
  | erase key =>
    obtain ⟨index', hs, h'⟩ := sound_erase h key
    exact ⟨index', hs, fun _ => h'⟩
  | rebuild k order =>
    obtain ⟨index', hs, h'⟩ := sound_rebuild h ha
    exact ⟨index', hs, fun _ => h'⟩

theorem sound_of_reachable (hr : Reachable hash index) : Sound hash index := by
  induction hr with
  | fresh k slots => exact ⟨k, 0, ∅, Holds.reset k hash slots⟩
  | step op _ ha hs hf ih =>
    obtain ⟨index'', hs', hsound⟩ := sound_step ih ha
    rw [hs] at hs'
    cases hs'
    exact hsound hf

/-! ## Searches in a reachable index -/

def HasEmpty (index : MalHashIndex K) (g : ℕ) : Prop := hashGroupMatch index.controls g hashEmpty ≠ []

omit [DecidableEq K] in
theorem not_hasEmpty_iff {k p : ℕ} : ¬ HasEmpty index (16 * p) ↔ (layout k).Full index.controls p := by
  rw [full_iff, HasEmpty, not_not]

theorem groupsVisited_split (k : ℕ) (hash : BitVec 64) {j : ℕ} (hj : j < 2 ^ k) :
    ∃ before after, groupsVisited hash (16 * 2 ^ k) = before ++ 16 * (layout k).path hash j :: after ∧
      ∀ g ∈ before, ∃ i < j, g = 16 * (layout k).path hash i := by
  refine ⟨(List.range j).map fun i => 16 * (layout k).path hash i,
    (List.range (2 ^ k - j - 1)).map fun i => 16 * (layout k).path hash (j + 1 + i), ?_, ?_⟩
  · rw [groupsVisited_eq]
    have : 2 ^ k = j + (1 + (2 ^ k - j - 1)) := by omega
    conv_lhs => rw [this, List.range_add, List.range_add]
    simp [add_assoc]
  · intro g hg
    obtain ⟨i, hi, rfl⟩ := List.mem_map.1 hg
    exact ⟨i, List.mem_range.1 hi, rfl⟩

namespace Holds

variable {k deleted : ℕ} {members : Finset K}

section

variable (h : Holds k hash index deleted members)
include h

omit [DecidableEq K] in
theorem full_before {b : ℕ} (hb : b < index.capacity) (hl : hashSlotLive index.controls b = true) :
    ∃ before after, groupsVisited (hash (index.slots b)) index.capacity = before ++ alignDown b :: after ∧
      ∀ g ∈ before, ¬ HasEmpty index g := by
  obtain ⟨j, hj, hp, hfull⟩ := h.table.reach b (hb.trans_eq h.cap) hl
  obtain ⟨before, after, hsplit, hbefore⟩ := groupsVisited_split k (hash (index.slots b)) hj
  refine ⟨before, after, ?_, fun g hg => ?_⟩
  · rw [h.cap, hsplit, hp, alignDown_eq, layout_groupOf]
  · obtain ⟨i, hi, rfl⟩ := hbefore g hg
    exact not_hasEmpty_iff.2 (hfull i hi)

theorem search_live {b : ℕ} (hb : b < index.capacity) (hl : hashSlotLive index.controls b = true) :
    hashSearch index.controls index.capacity (hash (index.slots b)) (fun c => index.slots c == index.slots b) false
      = some (some b) := by
  have hl' : index.controls b < hashEmpty := by simpa [hashSlotLive] using hl
  obtain ⟨r, hr, hout⟩ := h.lookup (· == index.slots b) (hash_of_beq hash members (index.slots b))
  cases r with
  | none => simpa using hout _ (h.mem b (h.cap ▸ hb) hl')
  | some c => rw [hr, h.inj c hout.1 b (h.cap ▸ hb) hout.2.1 hl' (eq_of_beq hout.2.2.2)]

theorem search_absent {key : K} (hkey : key ∉ liveKeys index) :
    hashSearch index.controls index.capacity (hash key) (fun c => index.slots c == key) false = some none := by
  obtain ⟨r, hr, hout⟩ := h.lookup (· == key) (hash_of_beq hash members key)
  cases r with
  | none => exact hr
  | some c =>
    have hmem := eq_of_beq hout.2.2.2 ▸ hout.2.2.1
    exact absurd (h.mem_iff_liveKeys.1 hmem) hkey

end

omit [DecidableEq K] in
theorem exists_stop (h : Holds k hash index deleted members) (hv : BitVec 64) :
    ∃ before g after, groupsVisited hv index.capacity = before ++ g :: after ∧ HasEmpty index g ∧
      ∀ g' ∈ before, ¬ HasEmpty index g' := by
  obtain ⟨b, hb, hempty⟩ := h.exists_empty
  have hstop : ∃ j, j < 2 ^ k ∧ ¬ (layout k).Full index.controls ((layout k).path hv j) :=
    exists_step_not_full (L := layout k) hb hempty hv
  classical
  obtain ⟨hj, hnf⟩ := Nat.find_spec hstop
  obtain ⟨before, after, hsplit, hbefore⟩ := groupsVisited_split k hv hj
  refine ⟨before, _, after, by rw [h.cap, hsplit], ?_, fun g hg => ?_⟩
  · by_contra hno
    exact hnf ((not_hasEmpty_iff (k := k)).1 hno)
  · obtain ⟨i, hi, rfl⟩ := hbefore g hg
    have hmin := Nat.find_min hstop hi
    refine (not_hasEmpty_iff (k := k)).2 ?_
    by_contra hno
    exact hmin ⟨by omega, hno⟩

end Holds

/-- **Searches end and are exact in every reachable state.** Every probe path meets each group once before
`mal_hash_probe_next` aborts; a live key's bucket comes before any EMPTY on its path, so a search returns it; a search for
an absent key ends at a group with an EMPTY bucket; and no allowed step aborts. -/
theorem reachable_search (hash : K → BitVec 64) (index : MalHashIndex K) (hr : Reachable hash index) :
    (∃ k, index.capacity = 16 * 2 ^ k) ∧
    (∀ hv : BitVec 64, (groupsVisited hv index.capacity).Perm ((List.range (index.capacity / 16)).map (16 * ·))) ∧
    (∀ b < index.capacity, hashSlotLive index.controls b = true →
      (∃ before after, groupsVisited (hash (index.slots b)) index.capacity = before ++ alignDown b :: after ∧
        ∀ g ∈ before, ¬ HasEmpty index g) ∧
      hashSearch index.controls index.capacity (hash (index.slots b)) (fun c => index.slots c == index.slots b) false
        = some (some b)) ∧
    (∀ key ∉ liveKeys index,
      (∃ before g after, groupsVisited (hash key) index.capacity = before ++ g :: after ∧ HasEmpty index g ∧
        ∀ g' ∈ before, ¬ HasEmpty index g') ∧
      hashSearch index.controls index.capacity (hash key) (fun c => index.slots c == key) false = some none) ∧
    (∀ op, Allowed index op → ∃ index', indexStep hash index op = some index') := by
  obtain ⟨k, deleted, members, h⟩ := sound_of_reachable hr
  refine ⟨⟨k, h.cap⟩, fun hv => ?_, fun b hb hl => ⟨h.full_before hb hl, h.search_live hb hl⟩,
    fun key hkey => ⟨h.exists_stop _, h.search_absent hkey⟩, fun op ha => ?_⟩
  · rw [h.cap, Nat.mul_div_cancel_left _ (by decide)]
    exact groupsVisited_perm k hv
  · obtain ⟨index', hs, _⟩ := sound_step ⟨k, deleted, members, h⟩ ha
    exact ⟨index', hs⟩

instance (index : MalHashIndex K) : (op : IndexOp K) → Decidable (Allowed index op)
  | .insert _ => .isTrue trivial
  | .erase _ => .isTrue trivial
  | .rebuild _ _ => inferInstanceAs (Decidable (_ ∧ _))

/-- the operations in turn; `none` when one aborts, is not allowed or leaves `mal_hash_index_fits` -/
def indexRun (hash : K → BitVec 64) : MalHashIndex K → List (IndexOp K) → Option (MalHashIndex K)
  | index, [] => some index
  | index, op :: ops => do
    let index' ← indexStep hash index op
    if Allowed index op ∧ hashIndexFits (occupied index') index'.capacity = true then indexRun hash index' ops else none

theorem reachable_indexRun (ops : List (IndexOp K)) {index index' : MalHashIndex K} (hr : Reachable hash index)
    (hrun : indexRun hash index ops = some index') : Reachable hash index' := by
  induction ops generalizing index with
  | nil => exact Option.some.inj hrun ▸ hr
  | cons op ops ih =>
    obtain ⟨mid, hs, hrest⟩ := Option.bind_eq_some_iff.1 hrun
    split at hrest
    case isTrue hok => exact ih (.step op hr hok.1 hs hok.2) hrest
    case isFalse => exact absurd hrest (by simp)

/-- seventeen keys on one path of two groups, so that key 15 spills into the second, and then an erase in the full group -/
def spilled : MalHashIndex ℕ :=
  (indexRun (BitVec.ofNat 64) (hashIndexReset (fun _ => 0) (16 * 2 ^ 1))
    ((32 :: List.range 16).map .insert ++ [.erase 5])).get (by decide +kernel)

/-- the search for the spilled key passes the DELETED bucket, that for the erased key ends in the second group, and the
erased key can be inserted again -/
theorem reachable_search_spilled : spilled.controls 6 = hashDeleted ∧ (groupsVisited 15 32).Perm [0, 16] ∧
    hashSearch spilled.controls 32 15 (fun c => spilled.slots c == 15) false = some (some 16) ∧
    hashSearch spilled.controls 32 5 (fun c => spilled.slots c == 5) false = some none ∧
    ∃ index', indexStep (BitVec.ofNat 64) spilled (.insert 5) = some index' := by
  have hr : Reachable (BitVec.ofNat 64) spilled := reachable_indexRun _ (.fresh 1 fun _ => 0) (Option.some_get _).symm
  have hcap : spilled.capacity = 32 := by decide +kernel
  have hslot : spilled.slots 16 = 15 := by decide +kernel
  obtain ⟨_, hperm, hlive, habsent, hstep⟩ := reachable_search (BitVec.ofNat 64) spilled hr
  have hfound := (hlive 16 (by decide +kernel) (by decide +kernel)).2
  have hmissing := (habsent 5 (by decide +kernel)).2
  rw [hcap] at hperm hfound hmissing
  rw [hslot] at hfound
  exact ⟨by decide +kernel, hperm 15, hfound, hmissing, hstep (.insert 5) trivial⟩

end Maligator.HashIndex
