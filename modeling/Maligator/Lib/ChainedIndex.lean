/-
A chained hash index of things that wait for a key.

Entries are appended to one vector and never move; each holds the position of the next one in its bucket, plus one, and a
bucket holds the position of its first. Activating a key walks its bucket, unlinks the entries with that key and visits
their values; an unlinked entry stays in the vector without a key, and a resize leaves it out of the new chains.

`waiting` is what the index stands for: the keys and values that wait, in order of arrival.

`resize_spec`, `wait_spec`, `activate_spec`: the operations on `waiting`.
-/
import Mathlib.Tactic

namespace Maligator.ChainedIndex

open List Function

variable {K V σ : Type*}

structure Pending (K V : Type*) where
  key : Option K
  value : V
  next : ℕ

structure Index (K V : Type*) where
  buckets : ℕ → ℕ
  bucketCount : ℕ
  entries : ℕ → Pending K V
  count : ℕ

def Index.empty [Inhabited V] : Index K V := ⟨fun _ => 0, 0, fun _ => ⟨none, default, 0⟩, 0⟩

/-- where a position is stored: in a bucket, or in the entry before -/
inductive Link where
  | bucket (b : ℕ)
  | next (i : ℕ)
  deriving DecidableEq

namespace Index

section

variable (index : Index K V) (link : Link) (i : ℕ) (next : ℕ) (j : ℕ)

def setNext (next : ℕ) : Index K V :=
  { index with entries := Function.update index.entries i { index.entries i with next := next } }

def clearKey : Index K V :=
  { index with entries := Function.update index.entries i { index.entries i with key := none } }

def read : Link → ℕ
  | .bucket b => index.buckets b
  | .next i => (index.entries i).next

def write : Link → ℕ → Index K V
  | .bucket b, next => { index with buckets := Function.update index.buckets b next }
  | .next i, next => index.setNext i next

@[simp] theorem clearKey_key : ((index.clearKey i).entries j).key = if j = i then none else (index.entries j).key := by
  by_cases h : j = i <;> simp [clearKey, h]

@[simp] theorem clearKey_value : ((index.clearKey i).entries j).value = (index.entries j).value := by
  by_cases h : j = i <;> simp [clearKey, h]

@[simp] theorem clearKey_next : ((index.clearKey i).entries j).next = (index.entries j).next := by
  by_cases h : j = i <;> simp [clearKey, h]

@[simp] theorem write_key (next j : ℕ) : ((index.write link next).entries j).key = (index.entries j).key := by
  cases link with
  | bucket b => rfl
  | next i => by_cases h : j = i <;> simp [write, setNext, h]

@[simp] theorem write_value (next j : ℕ) : ((index.write link next).entries j).value = (index.entries j).value := by
  cases link with
  | bucket b => rfl
  | next i => by_cases h : j = i <;> simp [write, setNext, h]

theorem write_next {link : Link} {j : ℕ} (h : link ≠ .next j) (next : ℕ) :
    ((index.write link next).entries j).next = (index.entries j).next := by
  cases link with
  | bucket b => rfl
  | next i =>
    have hne : j ≠ i := fun hj => h (hj ▸ rfl)
    simp [write, setNext, hne]

theorem write_buckets {link : Link} {b : ℕ} (h : link ≠ .bucket b) (next : ℕ) :
    (index.write link next).buckets b = index.buckets b := by
  cases link with
  | bucket b' =>
    have hne : b ≠ b' := fun hb => h (hb ▸ rfl)
    exact update_of_ne hne _ _
  | next i => rfl

@[simp] theorem read_clearKey : (index.clearKey i).read link = index.read link := by
  cases link with
  | bucket b => rfl
  | next j => exact index.clearKey_next i j

@[simp] theorem read_write : (index.write link next).read link = next := by
  cases link <;> simp [read, write, setNext]

@[simp] theorem write_bucketCount : (index.write link next).bucketCount = index.bucketCount := by
  cases link <;> rfl

@[simp] theorem write_count : (index.write link next).count = index.count := by
  cases link <;> rfl

end

end Index

section Operations

variable (hash : K → ℕ → ℕ)

/-- one entry joins the chain of its bucket, unless it has been activated -/
def relink (index : Index K V) (i : ℕ) : Index K V :=
  match (index.entries i).key with
  | none => index
  | some key =>
    let bucket := hash key index.bucketCount
    let index := index.setNext i (index.buckets bucket)
    { index with buckets := Function.update index.buckets bucket (i + 1) }

def resize (index : Index K V) (bucketCount : ℕ) : Index K V :=
  (List.range index.count).foldl (relink hash) { index with buckets := fun _ => 0, bucketCount := bucketCount }

def push (index : Index K V) (key : K) (value : V) : Index K V :=
  let bucket := hash key index.bucketCount
  { index with
    entries := Function.update index.entries index.count ⟨some key, value, index.buckets bucket⟩
    buckets := Function.update index.buckets bucket (index.count + 1)
    count := index.count + 1 }

def wait (index : Index K V) (key : K) (value : V) : Index K V :=
  if index.bucketCount = 0 ∨ index.count = index.bucketCount * 2 then
    push hash (resize hash index (if index.bucketCount = 0 then 16 else index.bucketCount * 2)) key value
  else push hash index key value

variable [DecidableEq K] (visit : σ → V → σ)

/-- the walk along a chain; `none` when the fuel does not reach its end -/
def activateLoop (key : K) : ℕ → Index K V → σ → Link → Option (Index K V × σ)
  | 0, _, _, _ => none
  | fuel + 1, index, s, link =>
    match index.read link with
    | 0 => some (index, s)
    | i + 1 =>
      let entry := index.entries i
      if entry.key ≠ some key then activateLoop key fuel index s (.next i)
      else activateLoop key fuel ((index.write link entry.next).clearKey i) (visit s entry.value) link

def activate (index : Index K V) (s : σ) (key : K) : Option (Index K V × σ) :=
  if index.bucketCount = 0 then some (index, s)
  else activateLoop visit key (index.count + 1) index s (.bucket (hash key index.bucketCount))

end Operations

/-! ## Chains -/

/-- the positions on a chain, from a stored position on -/
inductive Chain (entries : ℕ → Pending K V) : ℕ → List ℕ → Prop
  | nil : Chain entries 0 []
  | cons {i : ℕ} {l : List ℕ} : Chain entries (entries i).next l → Chain entries (i + 1) (i :: l)

variable {cur b i bucketCount : ℕ} {l : List ℕ}

theorem Chain.congr {entries entries' : ℕ → Pending K V} (h : Chain entries cur l)
    (heq : ∀ i ∈ l, (entries' i).next = (entries i).next) : Chain entries' cur l := by
  induction h with
  | nil => exact .nil
  | @cons i l _ ih =>
    refine .cons ?_
    rw [heq i mem_cons_self]
    exact ih fun j hj => heq j (mem_cons_of_mem i hj)

section Invariant

variable (hash : K → ℕ → ℕ)

def inBucket (index : Index K V) (b i : ℕ) : Bool := (index.entries i).key.any fun key => hash key index.bucketCount == b

def members (index : Index K V) (b : ℕ) : List ℕ := ((List.range index.count).filter (inBucket hash index b)).reverse

structure Inv (index : Index K V) : Prop where
  empty : index.bucketCount = 0 → index.count = 0
  chains : ∀ b < index.bucketCount, Chain index.entries (index.buckets b) (members hash index b)

def waiting (index : Index K V) : List (K × V) :=
  (List.range index.count).filterMap fun i => (index.entries i).key.map (·, (index.entries i).value)

variable {hash} {index : Index K V} {index' : Index K V}

theorem inv_empty [Inhabited V] : Inv hash (Index.empty : Index K V) := ⟨fun _ => rfl, nofun⟩

theorem mem_members :
    i ∈ members hash index b ↔ i < index.count ∧ ∃ key, (index.entries i).key = some key ∧ hash key index.bucketCount = b := by
  simp [members, inBucket, Option.any_eq_true]

theorem nodup_members (b : ℕ) : (members hash index b).Nodup := List.nodup_reverse.2 (nodup_range.filter _)

/-- the keys and values are those of another index with as many entries -/
structure SameEntries (index index' : Index K V) : Prop where
  count : index'.count = index.count
  key : ∀ i, (index'.entries i).key = (index.entries i).key
  value : ∀ i, (index'.entries i).value = (index.entries i).value

theorem SameEntries.waiting (h : SameEntries index index') : waiting index' = waiting index := by
  unfold ChainedIndex.waiting
  rw [h.count]
  simp only [h.key, h.value]

theorem SameEntries.inBucket (h : SameEntries index index')
    (hbc : index'.bucketCount = index.bucketCount) (b : ℕ) : inBucket hash index' b = inBucket hash index b := by
  funext i
  simp only [ChainedIndex.inBucket, h.key, hbc]

theorem relink_same (hash : K → ℕ → ℕ) (index : Index K V) (i : ℕ) :
    SameEntries index (relink hash index i) ∧ (relink hash index i).bucketCount = index.bucketCount := by
  unfold relink
  cases hkey : (index.entries i).key with
  | none => exact ⟨⟨rfl, fun _ => rfl, fun _ => rfl⟩, rfl⟩
  | some key =>
    refine ⟨⟨rfl, fun j => ?_, fun j => ?_⟩, rfl⟩
    · by_cases hj : j = i <;> simp [Index.setNext, hj]
    · by_cases hj : j = i <;> simp [Index.setNext, hj]

theorem relink_chain (hash : K → ℕ → ℕ) (h : Chain index.entries (index.buckets b) l) (hi : i ∉ l) :
    Chain (relink hash index i).entries ((relink hash index i).buckets b)
      (if inBucket hash index b i then i :: l else l) := by
  unfold relink inBucket
  cases hkey : (index.entries i).key with
  | none => simpa using h
  | some key =>
    have hframe : Chain (index.setNext i (index.buckets (hash key index.bucketCount))).entries (index.buckets b) l := by
      refine h.congr fun j hj => ?_
      have hne : j ≠ i := fun he => hi (he ▸ hj)
      simp [Index.setNext, update_of_ne hne]
    by_cases hb : hash key index.bucketCount = b
    · subst hb
      simp only [Option.any_some, beq_self_eq_true, update_self]
      refine .cons ?_
      simpa [Index.setNext] using hframe
    · simp only [Option.any_some, beq_iff_eq, hb, update_of_ne (Ne.symm hb)]
      exact hframe

theorem resize_spec (hash : K → ℕ → ℕ) (index : Index K V) (hpos : 0 < bucketCount) :
    Inv hash (resize hash index bucketCount) ∧ waiting (resize hash index bucketCount) = waiting index ∧
      (resize hash index bucketCount).bucketCount = bucketCount := by
  set start : Index K V := { index with buckets := fun _ => 0, bucketCount := bucketCount } with hstart
  -- after the first k positions the chains hold those of them that wait
  have hloop : ∀ k, SameEntries start ((List.range k).foldl (relink hash) start) ∧
      ((List.range k).foldl (relink hash) start).bucketCount = bucketCount ∧
      ∀ b, Chain ((List.range k).foldl (relink hash) start).entries (((List.range k).foldl (relink hash) start).buckets b)
        ((List.range k).filter (inBucket hash start b)).reverse := by
    intro k
    induction k with
    | zero => exact ⟨⟨rfl, fun _ => rfl, fun _ => rfl⟩, rfl, fun b => .nil⟩
    | succ k ih =>
      obtain ⟨hsame, hbc, hchain⟩ := ih
      rw [range_succ, foldl_append]
      obtain ⟨hsame', hbc'⟩ := relink_same hash ((List.range k).foldl (relink hash) start) k
      refine ⟨⟨hsame'.count.trans hsame.count, fun i => (hsame'.key i).trans (hsame.key i),
        fun i => (hsame'.value i).trans (hsame.value i)⟩, hbc'.trans hbc, fun b => ?_⟩
      have hnew := relink_chain hash (i := k) (hchain b) (by simp)
      rw [hsame.inBucket (hbc.trans rfl)] at hnew
      cases hb : inBucket hash start b k <;> simpa [hb] using hnew
  obtain ⟨hsame, hbc, hchain⟩ := hloop index.count
  have hwaiting : waiting start = waiting index := rfl
  refine ⟨⟨fun h => absurd (hbc.symm.trans h) hpos.ne', fun b _ => ?_⟩, hsame.waiting.trans hwaiting, hbc⟩
  have := hchain b
  unfold members
  unfold resize
  rwa [hsame.inBucket hbc, hsame.count]

/-! ## Waiting -/

theorem members_push (index : Index K V) (key : K) (value : V) (b : ℕ) : members hash (push hash index key value) b =
      if hash key index.bucketCount = b then index.count :: members hash index b else members hash index b := by
  have hold : ∀ i ∈ List.range index.count,
      inBucket hash (push hash index key value) b i = inBucket hash index b i := by
    intro i hi
    have hne : i ≠ index.count := (mem_range.1 hi).ne
    simp only [inBucket, push, update_of_ne hne]
  unfold members
  rw [show (push hash index key value).count = index.count + 1 from rfl, range_succ, filter_append,
    filter_congr hold]
  by_cases hb : hash key index.bucketCount = b <;> simp [inBucket, push, hb]

theorem waiting_push (hash : K → ℕ → ℕ) (index : Index K V) (key : K) (value : V) :
    waiting (push hash index key value) = waiting index ++ [(key, value)] := by
  unfold waiting
  rw [show (push hash index key value).count = index.count + 1 from rfl, range_succ, filterMap_append]
  congr 1
  · refine filterMap_congr fun i hi => ?_
    have hne : i ≠ index.count := (mem_range.1 hi).ne
    simp only [push, update_of_ne hne]
  · simp [push]

theorem push_inv (h : Inv hash index) (hpos : 0 < index.bucketCount) (key : K) (value : V) :
    Inv hash (push hash index key value) := by
  refine ⟨fun h0 => absurd h0 hpos.ne', fun b hb => ?_⟩
  have hframe : Chain (push hash index key value).entries (index.buckets b) (members hash index b) := by
    refine (h.chains b hb).congr fun i hi => ?_
    have hne : i ≠ index.count := (mem_members.1 hi).1.ne
    simp only [push, update_of_ne hne]
  rw [members_push]
  split_ifs with hb'
  · subst hb'
    simp only [push, update_self] at hframe ⊢
    refine .cons ?_
    rw [update_self]
    exact hframe
  · simp only [push, update_of_ne (Ne.symm hb')] at hframe ⊢
    exact hframe

theorem wait_spec (h : Inv hash index) (key : K) (value : V) :
    Inv hash (wait hash index key value) ∧ waiting (wait hash index key value) = waiting index ++ [(key, value)] := by
  unfold wait
  by_cases hgrow : index.bucketCount = 0 ∨ index.count = index.bucketCount * 2
  · rw [if_pos hgrow]
    have hpos : 0 < (if index.bucketCount = 0 then 16 else index.bucketCount * 2) := by split_ifs <;> omega
    obtain ⟨hinv, hwaiting, hbc⟩ := resize_spec hash index hpos
    exact ⟨push_inv hinv (hbc.symm ▸ hpos) key value, by rw [waiting_push, hwaiting]⟩
  · rw [if_neg hgrow]
    exact ⟨push_inv h (by omega) key value, waiting_push hash index key value⟩

/-! ## Activation -/

section Activation

variable [DecidableEq K] (visit : σ → V → σ)

def Link.Off (l : List ℕ) : Link → Prop
  | .bucket _ => True
  | .next j => j ∉ l

/-- what a walk along the chain l leaves -/
structure Walked (key : K) (index index' : Index K V) (link : Link) (l : List ℕ) : Prop where
  chain : Chain index'.entries (index'.read link) (l.filter fun i => (index.entries i).key ≠ some key)
  key : ∀ i, (index'.entries i).key =
    if i ∈ l ∧ (index.entries i).key = some key then none else (index.entries i).key
  value : ∀ i, (index'.entries i).value = (index.entries i).value
  next : ∀ i, i ∉ l → link ≠ .next i → (index'.entries i).next = (index.entries i).next
  buckets : ∀ b, link ≠ .bucket b → index'.buckets b = index.buckets b
  bucketCount : index'.bucketCount = index.bucketCount
  count : index'.count = index.count

theorem activateLoop_spec (key : K) (l : List ℕ) (fuel : ℕ) (index : Index K V) (s : σ) (link : Link)
    (hchain : Chain index.entries (index.read link) l) (hnodup : l.Nodup) (hoff : link.Off l) (hfuel : l.length < fuel) :
    ∃ index', activateLoop visit key fuel index s link =
        some (index', ((l.filter fun i => (index.entries i).key = some key).map fun i =>
          (index.entries i).value).foldl visit s) ∧
      Walked key index index' link l := by
  induction l generalizing fuel index s link with
  | nil =>
    obtain ⟨fuel, rfl⟩ : ∃ f, fuel = f + 1 := ⟨fuel - 1, by simp at hfuel; omega⟩
    have hread : index.read link = 0 := by
      cases h : index.read link with
      | zero => rfl
      | succ _ => rw [h] at hchain; cases hchain
    refine ⟨index, by simp [activateLoop, hread], ?_, ?_, fun _ => rfl, fun _ _ _ => rfl, fun _ _ => rfl, rfl, rfl⟩
    · rw [hread]
      exact .nil
    · intro i
      simp
  | cons i l ih =>
    obtain ⟨fuel, rfl⟩ : ∃ f, fuel = f + 1 := ⟨fuel - 1, by simp at hfuel; omega⟩
    obtain ⟨hi, hl⟩ := nodup_cons.1 hnodup
    generalize hread : index.read link = cur at hchain
    cases hchain with
    | cons htail =>
      rw [activateLoop, hread]
      dsimp only
      by_cases hk : (index.entries i).key = some key
      · -- the entry is unlinked, and the walk goes on from the same link
        rw [if_neg (not_not.2 hk)]
        set index₂ := (index.write link (index.entries i).next).clearKey i with hindex₂
        have hlink : ∀ j ∈ l, link ≠ .next j := by
          rintro j hj rfl
          exact hoff (mem_cons_of_mem i hj)
        have htail₂ : Chain index₂.entries (index₂.read link) l := by
          rw [Index.read_clearKey, Index.read_write]
          refine htail.congr fun j hj => ?_
          rw [Index.clearKey_next, Index.write_next _ (hlink j hj)]
        have hoff₂ : link.Off l := by
          cases link with
          | bucket b => trivial
          | next j => exact fun hj => hoff (mem_cons_of_mem i hj)
        have hkeys : ∀ j ∈ l, (index₂.entries j).key = (index.entries j).key := by
          intro j hj
          rw [Index.clearKey_key, if_neg (fun h : j = i => hi (h ▸ hj)), Index.write_key]
        obtain ⟨index', hrun, hw⟩ := ih fuel index₂ (visit s (index.entries i).value) link htail₂ hl hoff₂
          (by simp at hfuel; omega)
        refine ⟨index', ?_, ?_, fun j => ?_, fun j => ?_, fun j hj hne => ?_, fun b hne => ?_, ?_, ?_⟩
        · rw [hrun, filter_cons_of_pos (by simpa using hk), map_cons, foldl_cons,
            filter_congr fun j hj => by rw [hkeys j hj]]
          simp only [hindex₂, Index.clearKey_value, Index.write_value]
        · have hchain := hw.chain
          rw [filter_congr fun j hj => by rw [hkeys j hj]] at hchain
          rw [filter_cons_of_neg (by simpa using hk)]
          exact hchain
        · rw [hw.key]
          by_cases hji : j = i
          · simp [hji, hk, hindex₂]
          · simp [hji, hindex₂]
        · rw [hw.value, Index.clearKey_value, Index.write_value]
        · rw [hw.next j (fun h => hj (mem_cons_of_mem i h)) hne, Index.clearKey_next, Index.write_next _ hne]
        · rw [hw.buckets b hne]
          exact Index.write_buckets index hne _
        · exact hw.bucketCount.trans (Index.write_bucketCount index link _)
        · exact hw.count.trans (Index.write_count index link _)
      · -- the entry stays, and its own next is the link to go on from
        obtain ⟨index', hrun, hw⟩ := ih fuel index s (.next i) htail hl hi (by simp at hfuel; omega)
        refine ⟨index', by simpa [hk] using hrun, ?_, fun j => ?_, hw.value, fun j hj _ => ?_, fun b _ => ?_,
          hw.bucketCount, hw.count⟩
        · have hread' : index'.read link = i + 1 := by
            rw [← hread]
            cases link with
            | bucket b => exact hw.buckets b (by simp)
            | next j =>
              have hj : j ≠ i ∧ j ∉ l := by simpa [Link.Off] using hoff
              exact hw.next j hj.2 (by simpa using hj.1.symm)
          rw [hread', filter_cons_of_pos (by simpa using hk)]
          exact .cons hw.chain
        · rw [hw.key]
          by_cases hj : j = i
          · simp [hj, hk]
          · simp [hj]
        · have hj' : j ≠ i ∧ j ∉ l := by simpa using hj
          exact hw.next j hj'.2 (by simpa using hj'.1.symm)
        · exact hw.buckets b (by simp)

theorem waiting_values (index : Index K V) (key : K) : ((waiting index).filter fun p => p.1 = key).map Prod.snd =
    ((List.range index.count).filter fun i => (index.entries i).key = some key).map fun i => (index.entries i).value := by
  unfold waiting
  induction List.range index.count with
  | nil => rfl
  | cons i l ih =>
    cases hkey : (index.entries i).key with
    | none => simpa [hkey] using ih
    | some k => by_cases hk : k = key <;> simpa [hkey, hk] using ih

/-- **Activate.** The values that wait for the key are visited, the latest first, and wait no longer. -/
theorem activate_spec (hlt : ∀ key n, 0 < n → hash key n < n) (h : Inv hash index) (s : σ) (key : K) :
    ∃ index', activate hash visit index s key =
        some (index', (((waiting index).filter fun p => p.1 = key).map Prod.snd).reverse.foldl visit s) ∧
      Inv hash index' ∧ waiting index' = (waiting index).filter fun p => p.1 ≠ key := by
  by_cases hbc : index.bucketCount = 0
  · have hnone : waiting index = [] := by
      unfold waiting
      rw [h.empty hbc]
      rfl
    exact ⟨index, by simp [activate, hbc, hnone], h, by simp [hnone]⟩
  have hb := hlt key _ (Nat.pos_of_ne_zero hbc)
  set b := hash key index.bucketCount with hbdef
  have hlength : (members hash index b).length < index.count + 1 := by
    have := length_filter_le (inBucket hash index b) (List.range index.count)
    rw [length_range] at this
    rw [members, length_reverse]
    omega
  obtain ⟨index', hrun, hw⟩ := activateLoop_spec visit key _ _ index s (.bucket b) (h.chains b hb) (nodup_members b) trivial
    hlength
  -- the entries with the key are all in its bucket
  have hin : ∀ i < index.count, (index.entries i).key = some key → i ∈ members hash index b :=
    fun i hi hkey => mem_members.2 ⟨hi, key, hkey, rfl⟩
  have hkeys : ∀ i < index.count,
      (index'.entries i).key = if (index.entries i).key = some key then none else (index.entries i).key := by
    intro i hi
    rw [hw.key]
    by_cases hk : (index.entries i).key = some key <;> simp [hk, hin i hi]
  refine ⟨index', ?_, ⟨fun h0 => absurd (hw.bucketCount.symm.trans h0) hbc, fun b' hb' => ?_⟩, ?_⟩
  · rw [activate, if_neg hbc, hrun]
    congr 3
    rw [waiting_values, members, filter_reverse, filter_filter, map_reverse]
    congr 2
    refine filter_congr fun i _ => ?_
    by_cases hk : (index.entries i).key = some key <;> simp [hk, inBucket, hbdef]
  · have hmembers : members hash index' b' = (members hash index b').filter fun i => (index.entries i).key ≠ some key := by
      unfold members
      rw [hw.count, filter_reverse, filter_filter]
      congr 1
      refine filter_congr fun i hi => ?_
      have hkey := hkeys i (mem_range.1 hi)
      by_cases hk : (index.entries i).key = some key <;> simp [inBucket, hkey, hk, hw.bucketCount]
    rw [hmembers]
    by_cases hbb : b' = b
    · subst hbb
      exact hw.chain
    have hother : ∀ i ∈ members hash index b', (index.entries i).key ≠ some key := by
      intro i hi hk
      obtain ⟨-, key', hkey', hb''⟩ := mem_members.1 hi
      rw [hk, Option.some.injEq] at hkey'
      exact hbb (hb''.symm.trans (hkey' ▸ rfl))
    rw [filter_eq_self.2 fun i hi => by simpa using hother i hi, hw.buckets b' (by simpa using Ne.symm hbb)]
    refine (h.chains b' (hw.bucketCount ▸ hb')).congr fun i hi => hw.next i (fun hmem => ?_) (by simp)
    obtain ⟨-, key₁, hkey₁, hb₁⟩ := mem_members.1 hi
    obtain ⟨-, key₂, hkey₂, hb₂⟩ := mem_members.1 hmem
    rw [hkey₁, Option.some.injEq] at hkey₂
    exact hbb (hb₁.symm.trans (hkey₂ ▸ hb₂))
  · unfold waiting
    rw [hw.count, filter_filterMap]
    refine filterMap_congr fun i hi => ?_
    rw [hkeys i (mem_range.1 hi), hw.value]
    cases hkey : (index.entries i).key with
    | none => simp
    | some k => by_cases hk : k = key <;> simp [Option.filter, hk]

end Activation

end Invariant

end Maligator.ChainedIndex
