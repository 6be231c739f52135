/-
Model of the grouped hash index (`hash_index.h`) shared by Map, Set, the weak collections and the property tables.

The control bytes are a total function on buckets, of which only those below the capacity are ever read. A group match is
the ascending list of the matching lanes, which is the order `ctz` enumerates the mask in. `none` is an abort.

`hashSearch` is the probe loop that `mal_map_probe_in`, `mal_set_probe_in`, `mal_weak_find` and `mal_table_find_slot`
each spell out with their own comparison; the comparison is the parameter `hit`.

`hashSearch_outcome`: in a table with an empty bucket the loop ends without aborting, either at a hit or at the first
group with an empty bucket, and an insertion gets a bucket that its path reaches.
-/
import Maligator.Lib.TriangularProbe
import Maligator.Lib.GroupTable

namespace Maligator.HashIndex

open GroupTable List Function

/-! ## The source functions -/

def hashGroupWidth : ℕ := 16
def hashEmpty : ℕ := 0x80
def hashDeleted : ℕ := 0xfe

structure MalHashProbe where
  group : ℕ
  stride : ℕ
  mask : ℕ
  deriving DecidableEq, Repr

section

variable (controls : ℕ → ℕ)

def hashTag (hash : BitVec 64) : ℕ := hash.toNat >>> 57

/-- `x & ~(MAL_HASH_GROUP_WIDTH - 1)` -/
def alignDown (x : ℕ) : ℕ := x / hashGroupWidth * hashGroupWidth

def hashProbe (hash : BitVec 64) (capacity : ℕ) : MalHashProbe where
  group := alignDown (hash.toNat % 2 ^ 32 &&& (capacity - 1))
  stride := 0
  mask := capacity - 1

def hashProbeNext (probe : MalHashProbe) : Option MalHashProbe :=
  let stride := probe.stride + hashGroupWidth
  if stride > probe.mask then none
  else some { probe with stride := stride, group := (probe.group + stride) &&& probe.mask }

/-- the lanes of the group whose control is `tag`, lowest first -/
def hashGroupMatch (group tag : ℕ) : List ℕ :=
  (List.range hashGroupWidth).filter fun lane => controls (group + lane) == tag

def hashSlotLive (slot : ℕ) : Bool := decide (controls slot < hashEmpty)

/-- the loop of `mal_hash_controls_empty_slot`; the fuel bounds the groups it may visit -/
def emptySlotLoop (controls : ℕ → ℕ) : ℕ → MalHashProbe → Option ℕ
  | 0, _ => none
  | fuel + 1, probe =>
    match (hashGroupMatch controls probe.group hashEmpty).head? with
    | some lane => some (probe.group + lane)
    | none => (hashProbeNext probe).bind (emptySlotLoop controls fuel)

def hashControlsEmptySlot (capacity : ℕ) (hash : BitVec 64) : Option ℕ :=
  emptySlotLoop controls capacity (hashProbe hash capacity)

/-- returns the new controls and whether the bucket was left DELETED -/
def hashControlsErase (slot : ℕ) : (ℕ → ℕ) × Bool :=
  let deleted := (hashGroupMatch controls (alignDown slot) hashEmpty).isEmpty
  (update controls slot (if deleted then hashDeleted else hashEmpty), deleted)

def hashIndexFits (size capacity : ℕ) : Bool := decide (size ≤ capacity - capacity / 8)

theorem hashIndexFits_mono {m n capacity : ℕ} (h : m ≤ n) (hfits : hashIndexFits n capacity = true) :
    hashIndexFits m capacity = true :=
  decide_eq_true (h.trans (of_decide_eq_true hfits))

/-- one probe loop; `some none` is UINT32_MAX -/
def searchLoop (controls : ℕ → ℕ) (tag : ℕ) (hit : ℕ → Bool) (insert : Bool) :
    ℕ → MalHashProbe → Option ℕ → Option (Option ℕ)
  | 0, _, _ => none
  | fuel + 1, probe, available =>
    match ((hashGroupMatch controls probe.group tag).map (probe.group + ·)).find? hit with
    | some slot => some (some slot)
    | none =>
      let available :=
        if insert && available.isNone then
          (hashGroupMatch controls probe.group hashDeleted).head?.map (probe.group + ·)
        else available
      match (hashGroupMatch controls probe.group hashEmpty).head? with
      | some lane => if insert then some (some (available.getD (probe.group + lane))) else some none
      | none => (hashProbeNext probe).bind fun probe => searchLoop controls tag hit insert fuel probe available

def hashSearch (capacity : ℕ) (hash : BitVec 64) (hit : ℕ → Bool) (insert : Bool) : Option (Option ℕ) :=
  searchLoop controls (hashTag hash) hit insert capacity (hashProbe hash capacity) none

end

/-- an index: what each bucket holds, its control byte, and the number of buckets -/
structure MalHashIndex (E : Type) where
  capacity : ℕ
  controls : ℕ → ℕ
  slots : ℕ → E

section Index

variable {E : Type}

/-- `mal_hash_index_reset`: every control EMPTY, the slots left as they are -/
def hashIndexReset (slots : ℕ → E) (capacity : ℕ) : MalHashIndex E := ⟨capacity, fun _ => hashEmpty, slots⟩

def hashIndexInsert (index : MalHashIndex E) (slot : ℕ) (entry : E) (hash : BitVec 64) : MalHashIndex E :=
  { index with
    slots := update index.slots slot entry
    controls := update index.controls slot (hashTag hash) }

def hashIndexEmptySlot (index : MalHashIndex E) (hash : BitVec 64) : Option ℕ :=
  hashControlsEmptySlot index.controls index.capacity hash

def hashIndexErase (index : MalHashIndex E) (slot : ℕ) : MalHashIndex E × Bool :=
  let (controls, deleted) := hashControlsErase index.controls slot
  ({ index with controls := controls }, deleted)

/-- the fill loop of the rebuilds: each entry goes into the first empty bucket on its path -/
def hashIndexFill (hash : E → BitVec 64) (index : MalHashIndex E) (entries : List E) : Option (MalHashIndex E) :=
  entries.foldlM (fun index entry =>
    (hashIndexEmptySlot index (hash entry)).map fun slot => hashIndexInsert index slot entry (hash entry)) index

end Index

/-- the groups a probe stands at, one after the other, until `mal_hash_probe_next` aborts -/
def probeGroups : ℕ → MalHashProbe → List ℕ
  | 0, _ => []
  | fuel + 1, probe => probe.group :: ((hashProbeNext probe).elim [] (probeGroups fuel))

section

variable (k : ℕ) (hash : BitVec 64)

def groupsVisited (capacity : ℕ) : List ℕ := probeGroups capacity (hashProbe hash capacity)

/-! ## Groups as a table layout -/

theorem hashTag_lt : hashTag hash < hashEmpty := by
  simp only [hashTag, hashEmpty]
  omega

def startGroup : ℕ := hash.toNat % 2 ^ 32 % (16 * 2 ^ k) / 16

theorem startGroup_lt : startGroup k hash < 2 ^ k := Nat.div_lt_of_lt_mul (Nat.mod_lt _ (by positivity))

def layout : Layout (BitVec 64) ℕ where
  width := 16
  groups := 2 ^ k
  path hash j := TriangularProbe.path (2 ^ k) (startGroup k hash) j
  tag := hashTag
  empty := hashEmpty
  deleted := hashDeleted
  live c := decide (c < hashEmpty)
  width_pos := by decide
  exists_step hash _ hg := TriangularProbe.exists_step k (startGroup k hash) hg
  live_tag hash := by simpa using hashTag_lt hash
  live_empty := by decide
  live_deleted := by decide
  deleted_ne_empty := by decide

@[simp] theorem layout_buckets : (layout k).buckets = 16 * 2 ^ k := rfl
@[simp] theorem layout_groups : (layout k).groups = 2 ^ k := rfl
@[simp] theorem layout_groupOf (b : ℕ) : (layout k).groupOf b = b / 16 := rfl
@[simp] theorem layout_live (c : ℕ) : (layout k).live c = decide (c < hashEmpty) := rfl
@[simp] theorem layout_tag : (layout k).tag = hashTag := rfl
@[simp] theorem layout_empty : (layout k).empty = hashEmpty := rfl
@[simp] theorem layout_deleted : (layout k).deleted = hashDeleted := rfl

theorem layout_path (j : ℕ) (hash : BitVec 64) :
    (layout k).path hash j = TriangularProbe.path (2 ^ k) (startGroup k hash) j := rfl

end

theorem layout_path_lt (k j : ℕ) (hash : BitVec 64) : (layout k).path hash j < 2 ^ k :=
  TriangularProbe.path_lt (Nat.two_pow_pos k) _ _

variable {controls : ℕ → ℕ} {k : ℕ} {hash : BitVec 64}

variable {group tag lane p j b : ℕ} {probe : MalHashProbe}

theorem mem_hashGroupMatch : lane ∈ hashGroupMatch controls group tag ↔ lane < 16 ∧ controls (group + lane) = tag := by
  simp [hashGroupMatch, hashGroupWidth]

theorem hashGroupMatch_eq_nil : hashGroupMatch controls (16 * p) tag = [] ↔ ∀ b, b / 16 = p → controls b ≠ tag := by
  rw [eq_nil_iff_forall_not_mem]
  constructor
  · intro h b hb htag
    refine h (b % 16) (mem_hashGroupMatch.2 ⟨Nat.mod_lt _ (by decide), ?_⟩)
    rw [← hb, Nat.div_add_mod]
    exact htag
  · intro h lane hlane
    obtain ⟨hlt, htag⟩ := mem_hashGroupMatch.1 hlane
    exact h (16 * p + lane) (by omega) htag

theorem full_iff : (layout k).Full controls p ↔ hashGroupMatch controls (16 * p) hashEmpty = [] :=
  hashGroupMatch_eq_nil.symm

theorem alignDown_eq (slot : ℕ) : alignDown slot = 16 * (slot / 16) := Nat.mul_comm _ _

theorem hashControlsErase_deleted (k : ℕ) (controls : ℕ → ℕ) (slot : ℕ) :
    (hashControlsErase controls slot).2 = true ↔ (layout k).Full controls ((layout k).groupOf slot) := by
  rw [full_iff, layout_groupOf, ← alignDown_eq]
  simp [hashControlsErase]

/-! ## The probe walks the path -/

/-- the probe has taken j steps along the path of `hash` -/
structure ProbeAt (k : ℕ) (hash : BitVec 64) (j : ℕ) (probe : MalHashProbe) : Prop where
  group : probe.group = 16 * (layout k).path hash j
  stride : probe.stride = 16 * j
  mask : probe.mask = 16 * 2 ^ k - 1

theorem and_mask (k x : ℕ) : x &&& (16 * 2 ^ k - 1) = x % (16 * 2 ^ k) := by
  have : 16 * 2 ^ k = 2 ^ (k + 4) := by rw [pow_add]; ring
  rw [this, Nat.and_two_pow_sub_one_eq_mod]

theorem probeAt_zero (k : ℕ) (hash : BitVec 64) : ProbeAt k hash 0 (hashProbe hash (16 * 2 ^ k)) where
  group := by
    simp only [hashProbe, and_mask, alignDown_eq, layout_path]
    rw [TriangularProbe.path_zero (startGroup_lt k hash), startGroup]
  stride := rfl
  mask := rfl

theorem ProbeAt.next (hp : ProbeAt k hash j probe)
    (hj : j + 1 < 2 ^ k) : ∃ probe', hashProbeNext probe = some probe' ∧ ProbeAt k hash (j + 1) probe' := by
  have hle : ¬ (16 * j + 16 > 16 * 2 ^ k - 1) := by omega
  refine ⟨⟨16 * (layout k).path hash (j + 1), 16 * (j + 1), 16 * 2 ^ k - 1⟩, ?_, rfl, rfl, rfl⟩
  simp only [hashProbeNext, hp.stride, hp.mask, hp.group, hashGroupWidth, if_neg hle, and_mask, layout_path,
    TriangularProbe.path_succ, Option.some.injEq, MalHashProbe.mk.injEq, and_true]
  refine ⟨?_, by ring⟩
  rw [← Nat.mul_mod_mul_left]
  congr 1
  ring

theorem ProbeAt.next_eq_none (hp : ProbeAt k hash j probe) (hj : 2 ^ k ≤ j + 1) : hashProbeNext probe = none := by
  have : 16 * j + 16 > 16 * 2 ^ k - 1 := by omega
  simp [hashProbeNext, hp.stride, hp.mask, hashGroupWidth, this]

theorem probeGroups_eq (n : ℕ) :
    ∀ (fuel j : ℕ) (probe : MalHashProbe), ProbeAt k hash j probe → j + n + 1 = 2 ^ k → n < fuel →
      probeGroups fuel probe = (List.range (n + 1)).map fun i => 16 * (layout k).path hash (j + i) := by
  induction n with
  | zero =>
    rintro (_ | fuel) j probe hp hj hf
    · omega
    · simp [probeGroups, hp.next_eq_none (by omega), hp.group]
  | succ n ih =>
    rintro (_ | fuel) j probe hp hj hf
    · omega
    · obtain ⟨probe', hnext, hp'⟩ := hp.next (by omega)
      rw [probeGroups, hnext, Option.elim, ih fuel (j + 1) probe' hp' (by omega) (by omega), hp.group,
        range_succ_eq_map (n := n + 1)]
      simp [add_assoc, add_comm 1]

theorem groupsVisited_eq (k : ℕ) (hash : BitVec 64) :
    groupsVisited hash (16 * 2 ^ k) = (List.range (2 ^ k)).map fun j => 16 * (layout k).path hash j := by
  have hpos := Nat.two_pow_pos k
  rw [groupsVisited, probeGroups_eq (2 ^ k - 1) _ 0 _ (probeAt_zero k hash) (by omega) (by omega),
    show 2 ^ k - 1 + 1 = 2 ^ k by omega]
  simp

/-- **Every group exactly once.** The groups met before `mal_hash_probe_next` aborts are all groups, each once. -/
theorem groupsVisited_perm (k : ℕ) (hash : BitVec 64) :
    (groupsVisited hash (16 * 2 ^ k)).Perm ((List.range (2 ^ k)).map (16 * ·)) := by
  have heq : groupsVisited hash (16 * 2 ^ k) = ((List.range (2 ^ k)).map ((layout k).path hash)).map (16 * ·) := by
    simp [groupsVisited_eq]
  rw [heq]
  refine List.Perm.map _ ((perm_ext_iff_of_nodup ?_ nodup_range).2 fun g => ?_)
  · refine List.Nodup.map_on ?_ nodup_range
    intro i hi j hj h
    exact TriangularProbe.path_injOn k _ (mem_range.1 hi) (mem_range.1 hj) h
  simp only [mem_map, mem_range]
  constructor
  · rintro ⟨j, _, rfl⟩
    exact layout_path_lt k j hash
  · intro hg
    obtain ⟨j, hj, hp⟩ := (layout k).exists_step hash g hg
    exact ⟨j, hj, hp⟩

/-! ## The search loop -/

/-- how a search of `hash` ended: at a hit, or at the first group with an empty bucket, having seen no hit -/
inductive SearchOutcome (k : ℕ) (controls : ℕ → ℕ) (hash : BitVec 64) (hit : ℕ → Bool) (insert : Bool) :
    Option ℕ → Prop
  | found {b : ℕ} (hb : b < 16 * 2 ^ k) (htag : controls b = hashTag hash) (hhit : hit b = true) :
      SearchOutcome k controls hash hit insert (some b)
  | missed {j : ℕ} {r : Option ℕ}
      (hpre : ∀ i ≤ j, ∀ b, b / 16 = (layout k).path hash i → controls b = hashTag hash → hit b = false)
      (hstop : ¬ (layout k).Full controls ((layout k).path hash j))
      (hlookup : insert = false → r = none)
      (hinsert : insert = true → ∃ b < 16 * 2 ^ k, r = some b ∧ (layout k).Reaches controls hash b ∧
        (controls b = hashDeleted ∨ controls b = hashEmpty)) :
      SearchOutcome k controls hash hit insert r

theorem reaches_of_prefix (hj : j < 2 ^ k)
    (hb : b / 16 = (layout k).path hash j) (hfull : ∀ i < j, (layout k).Full controls ((layout k).path hash i)) :
    (layout k).Reaches controls hash b :=
  ⟨j, hj, hb.symm, hfull⟩

theorem lt_of_group (hb : b / 16 = (layout k).path hash j) : b < 16 * 2 ^ k := by
  have := layout_path_lt k j hash
  omega

theorem head_lane (h : (hashGroupMatch controls (16 * p) tag).head? = some lane) :
    (16 * p + lane) / 16 = p ∧ controls (16 * p + lane) = tag := by
  obtain ⟨hlt, htag⟩ := mem_hashGroupMatch.1 (mem_of_head? h)
  exact ⟨by omega, htag⟩

/-- What the loop knows after j groups: no hit, all full, and the tombstone it would reuse. -/
structure Seen (k : ℕ) (controls : ℕ → ℕ) (hash : BitVec 64) (hit : ℕ → Bool) (j : ℕ) (available : Option ℕ) :
    Prop where
  miss : ∀ i < j, ∀ b, b / 16 = (layout k).path hash i → controls b = hashTag hash → hit b = false
  full : ∀ i < j, (layout k).Full controls ((layout k).path hash i)
  avail : ∀ b, available = some b → b < 16 * 2 ^ k ∧ (layout k).Reaches controls hash b ∧ controls b = hashDeleted

theorem find_hit (controls : ℕ → ℕ) (p tag : ℕ) (hit : ℕ → Bool) :
    match ((hashGroupMatch controls (16 * p) tag).map (16 * p + ·)).find? hit with
    | some b => b / 16 = p ∧ controls b = tag ∧ hit b = true
    | none => ∀ b, b / 16 = p → controls b = tag → hit b = false := by
  split
  · rename_i b hfind
    obtain ⟨lane, hlane, rfl⟩ := mem_map.1 (mem_of_find?_eq_some hfind)
    obtain ⟨hlt, htag⟩ := mem_hashGroupMatch.1 hlane
    exact ⟨by omega, htag, find?_some hfind⟩
  rename_i hfind
  intro b hb htag
  rw [find?_eq_none] at hfind
  have hmem : b ∈ (hashGroupMatch controls (16 * p) tag).map (16 * p + ·) := by
    refine mem_map.2 ⟨b % 16, mem_hashGroupMatch.2 ⟨Nat.mod_lt _ (by decide), ?_⟩, ?_⟩
    · rw [← hb, Nat.div_add_mod]; exact htag
    · rw [← hb, Nat.div_add_mod]
  simpa using hfind b hmem

theorem searchLoop_outcome {hit : ℕ → Bool} {insert : Bool} :
    ∀ (fuel j : ℕ) (probe : MalHashProbe) (available : Option ℕ), ProbeAt k hash j probe → j < 2 ^ k →
      2 ^ k ≤ fuel + j → Seen k controls hash hit j available →
      (∃ e < 2 ^ k, ¬ (layout k).Full controls ((layout k).path hash e)) →
      ∃ r, searchLoop controls (hashTag hash) hit insert fuel probe available = some r ∧
        SearchOutcome k controls hash hit insert r := by
  intro fuel
  induction fuel with
  | zero => intro j _ _ _ hj hf; omega
  | succ fuel ih =>
    intro j probe available hp hj hf hs he
    rw [searchLoop, hp.group]
    have hfind := find_hit controls ((layout k).path hash j) (hashTag hash) hit
    split at hfind
    · exact ⟨_, rfl, .found (lt_of_group hfind.1) hfind.2.1 hfind.2.2⟩
    -- the tombstone remembered from here on lies in a group met so far
    generalize hav : (if (insert && available.isNone) = true then
        (hashGroupMatch controls (16 * (layout k).path hash j) hashDeleted).head?.map
          (16 * (layout k).path hash j + ·) else available) = available'
    have havail : ∀ b, available' = some b →
        b < 16 * 2 ^ k ∧ (layout k).Reaches controls hash b ∧ controls b = hashDeleted := by
      intro b hb
      rw [← hav] at hb
      split at hb
      · obtain ⟨lane, hlane, rfl⟩ := Option.map_eq_some_iff.1 hb
        obtain ⟨hg, hd⟩ := head_lane hlane
        exact ⟨lt_of_group hg, reaches_of_prefix hj hg hs.full, hd⟩
      · exact hs.avail b hb
    have hmiss : ∀ i ≤ j, ∀ b, b / 16 = (layout k).path hash i → controls b = hashTag hash → hit b = false := by
      intro i hi
      rcases Nat.lt_or_eq_of_le hi with hlt | rfl
      · exact hs.miss i hlt
      · exact hfind
    cases hempty : (hashGroupMatch controls (16 * (layout k).path hash j) hashEmpty).head? with
    | some lane =>
      obtain ⟨hg, hce⟩ := head_lane hempty
      have hstop : ¬ (layout k).Full controls ((layout k).path hash j) := fun hfull => hfull _ hg hce
      cases insert with
      | false => exact ⟨none, rfl, .missed hmiss hstop (fun _ => rfl) (by simp)⟩
      | true =>
        refine ⟨_, rfl, .missed hmiss hstop (by simp) fun _ => ?_⟩
        cases available' with
        | none => exact ⟨_, lt_of_group hg, rfl, reaches_of_prefix hj hg hs.full, .inr hce⟩
        | some b =>
          obtain ⟨h1, h2, h3⟩ := havail b rfl
          exact ⟨b, h1, rfl, h2, .inl h3⟩
    | none =>
      have hfull : (layout k).Full controls ((layout k).path hash j) := full_iff.2 (List.head?_eq_none_iff.1 hempty)
      have hs' : Seen k controls hash hit (j + 1) available' := by
        refine ⟨fun i hi => hmiss i (by omega), fun i hi => ?_, havail⟩
        rcases Nat.lt_or_eq_of_le (Nat.lt_succ_iff.1 hi) with hlt | rfl
        · exact hs.full i hlt
        · exact hfull
      -- a group that stops the search lies ahead, so the probe does not abort
      obtain ⟨e, hek, hestop⟩ := he
      have hej : j < e := by
        by_contra hle
        exact hestop (hs'.full e (by omega))
      obtain ⟨probe', hnext, hp'⟩ := hp.next (by omega)
      rw [hnext]
      exact ih (j + 1) probe' available' hp' (by omega) (by omega) hs' ⟨e, hek, hestop⟩

theorem hashSearch_outcome (hb : b < 16 * 2 ^ k) (he : controls b = hashEmpty)
    (hash : BitVec 64) (hit : ℕ → Bool) (insert : Bool) :
    ∃ r, hashSearch controls (16 * 2 ^ k) hash hit insert = some r ∧ SearchOutcome k controls hash hit insert r := by
  have hpos := Nat.two_pow_pos k
  refine searchLoop_outcome _ 0 _ none (probeAt_zero k hash) hpos (by omega) ⟨?_, ?_, by simp⟩ ?_
  · intro i hi; omega
  · intro i hi; omega
  · exact exists_step_not_full (L := layout k) hb he hash

theorem emptySlotLoop_spec :
    ∀ (fuel j : ℕ) (probe : MalHashProbe), ProbeAt k hash j probe → j < 2 ^ k → 2 ^ k ≤ fuel + j →
      (∀ i < j, (layout k).Full controls ((layout k).path hash i)) →
      (∃ e < 2 ^ k, ¬ (layout k).Full controls ((layout k).path hash e)) →
      ∃ b < 16 * 2 ^ k, emptySlotLoop controls fuel probe = some b ∧ controls b = hashEmpty ∧
        (layout k).Reaches controls hash b := by
  intro fuel
  induction fuel with
  | zero => intro j _ _ hj hf; omega
  | succ fuel ih =>
    intro j probe hp hj hf hfull he
    rw [emptySlotLoop, hp.group]
    cases hempty : (hashGroupMatch controls (16 * (layout k).path hash j) hashEmpty).head? with
    | some lane =>
      obtain ⟨hg, hce⟩ := head_lane hempty
      exact ⟨_, lt_of_group hg, rfl, hce, reaches_of_prefix hj hg hfull⟩
    | none =>
      have hfull' : ∀ i < j + 1, (layout k).Full controls ((layout k).path hash i) := by
        intro i hi
        rcases Nat.lt_or_eq_of_le (Nat.lt_succ_iff.1 hi) with hlt | rfl
        · exact hfull i hlt
        · exact full_iff.2 (List.head?_eq_none_iff.1 hempty)
      obtain ⟨e, hek, hestop⟩ := he
      have hej : j < e := by
        by_contra hle
        exact hestop (hfull' e (by omega))
      obtain ⟨probe', hnext, hp'⟩ := hp.next (by omega)
      simp only [hnext]
      exact ih (j + 1) probe' hp' (by omega) (by omega) hfull' ⟨e, hek, hestop⟩

theorem hashControlsEmptySlot_spec (hb : b < 16 * 2 ^ k) (he : controls b = hashEmpty) (hash : BitVec 64) :
    ∃ b' < 16 * 2 ^ k, hashControlsEmptySlot controls (16 * 2 ^ k) hash = some b' ∧ controls b' = hashEmpty ∧
      (layout k).Reaches controls hash b' := by
  have hpos := Nat.two_pow_pos k
  refine emptySlotLoop_spec _ 0 _ (probeAt_zero k hash) hpos (by omega) ?_ ?_
  · intro i hi; omega
  · exact exists_step_not_full (L := layout k) hb he hash

end Maligator.HashIndex
