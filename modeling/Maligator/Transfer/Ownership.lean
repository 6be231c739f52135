/-
One owner for every store.

`owners`: in how many places a store is held: by the sender's wrappers, by snapshots, by the receiver's wrappers, or given up.
`Conserves`: nothing lost and nothing duplicated, so every store that was ever allocated keeps one owner.
`Apart`: the entries of a transfer list name different buffers and different resources, and before commit those resources are
empty. That is what lets commit move the stores one by one.
`steal_valid`: a commit that passes validation moves every listed store and no other.
-/
import Maligator.Transfer.Snapshot
import Mathlib.Algebra.Order.BigOperators.Group.List
import Mathlib.Algebra.Order.Ring.Nat
import Mathlib.Data.List.Nodup

namespace Maligator.Transfer

open List

/-! ## Counting owners -/

variable {i id b next' : ℕ}

theorem sum_set {α : Type} {list : List α} {a : α} (f : α → ℕ) (ha : list[i]? = some a) (b : α) :
    ((list.set i b).map f).sum + f a = (list.map f).sum + f b := by
  induction list generalizing i with
  | nil => cases ha
  | cons c list ih =>
    cases i with
    | zero =>
      cases ha
      simp only [set_cons_zero, map_cons, sum_cons]
      omega
    | succ i =>
      have := ih (by simpa using ha)
      simp only [set_cons_succ, map_cons, sum_cons] at this ⊢
      omega

def held (x : ℕ) (data : Option ℕ) : ℕ := if data = some x then 1 else 0

def heldBy {α : Type} (data : α → Option ℕ) (x : ℕ) (list : List α) : ℕ := (list.map fun a => held x (data a)).sum

section HeldBy

variable {α : Type} {data : α → Option ℕ} {x : ℕ} {list : List α}

@[simp] theorem heldBy_nil : heldBy data x [] = 0 := rfl

theorem heldBy_append (front back : List α) : heldBy data x (front ++ back) = heldBy data x front + heldBy data x back := by
  rw [heldBy, map_append, sum_append]
  rfl

theorem heldBy_singleton (a : α) : heldBy data x [a] = held x (data a) := by
  simp [heldBy]

theorem heldBy_set {a : α} (ha : list[i]? = some a) (b : α) :
    heldBy data x (list.set i b) + held x (data a) = heldBy data x list + held x (data b) :=
  sum_set (fun a => held x (data a)) ha b

theorem heldBy_filterMap (list : List α) : heldBy some x (list.filterMap data) = heldBy data x list := by
  induction list with
  | nil => rfl
  | cons a list ih =>
    cases hd : data a with
    | none =>
      rw [filterMap_cons_none hd, ih]
      simp [heldBy, hd, held]
    | some y =>
      rw [filterMap_cons_some hd]
      simp only [heldBy, map_cons, sum_cons, hd] at ih ⊢
      rw [ih]

theorem heldBy_pos {a : α} (ha : list[i]? = some a) (hd : data a = some x) : 0 < heldBy data x list := by
  refine Nat.lt_of_lt_of_le Nat.zero_lt_one (le_sum_of_mem (mem_map.2 ⟨a, mem_of_getElem? ha, ?_⟩))
  rw [held, if_pos hd]

end HeldBy

section

variable (st : State) (x : ℕ)

def resourcesHold (resources : List SerResource) : ℕ := heldBy (·.data) x resources

def snapshotHolds : Option MalSerializedValue → ℕ
  | some s => resourcesHold x s.resources
  | none => 0

def senderHolds : ℕ := heldBy (·.data) x st.buffers

def snapshotsHold : ℕ := (st.snapshots.map (snapshotHolds x)).sum

def receiverHolds : ℕ := heldBy (·.data) x st.received

def givenUp : ℕ := heldBy some x st.released

def owners : ℕ := senderHolds st x + snapshotsHold st x + receiverHolds st x + givenUp st x

def allocated (next x : ℕ) : ℕ := if x < next then 1 else 0

/-- **Every store is in exactly one place.** -/
def OneOwner : Prop := ∀ x, owners st x = allocated st.nextStore x

def Conserves (st' : State) : Prop :=
  ∀ x, owners st' x + allocated st.nextStore x = owners st x + allocated st'.nextStore x

theorem Conserves.refl : Conserves st st := fun _ => rfl

end

variable {st st' : State}

theorem Conserves.oneOwner (hc : Conserves st st') (h : OneOwner st) : OneOwner st' := by
  intro x
  have h1 := hc x
  have h2 := h x
  omega

variable {s : MalSerializedValue} {buffers : List ArrayBuffer}

theorem snapshots_set (hs : st.snapshots[id]? = some (some s)) (new : Option MalSerializedValue) (x : ℕ) :
    ((st.snapshots.set id new).map (snapshotHolds x)).sum + resourcesHold x s.resources =
      snapshotsHold st x + snapshotHolds x new := sum_set (snapshotHolds x) hs new

/-! ## The transfer list -/

structure Apart (e f : TransferEntry) : Prop where
  item : e.item ≠ f.item
  resource : ∀ i, e.resource = some i → f.resource ≠ some i

structure SnapshotOk (s : MalSerializedValue) : Prop where
  apart : s.transfers.Pairwise Apart
  room : ∀ e ∈ s.transfers, ∀ i, e.resource = some i → i < s.resources.length
  empty : s.committed = false → ∀ e ∈ s.transfers, ∀ i r, e.resource = some i → s.resources[i]? = some r → r.data = none

structure Inv (st : State) : Prop where
  oneOwner : OneOwner st
  snapshot : ∀ (id : ℕ) (s : MalSerializedValue), st.snapshots[id]? = some (some s) → SnapshotOk s

theorem SnapshotOk.addResource (h : SnapshotOk s) (r : SerResource) : SnapshotOk (addResource s r) := by
  refine ⟨h.apart, fun e he i hi => ?_, fun hc e he i r' hi hr => ?_⟩
  · have := h.room e he i hi
    simp only [Transfer.addResource, length_append, length_singleton]
    omega
  · have hroom := h.room e he i hi
    rw [Transfer.addResource] at hr
    rw [getElem?_append_left hroom] at hr
    exact h.empty hc e he i r' hi hr

variable {r : SerResource} {hooks : Hooks} {transfers : List TransferEntry}

theorem SnapshotOk.placeResource (h : SnapshotOk s) (v : Transferable)
    (hr : r.data = none) : SnapshotOk (placeResource s v r) := by
  have hadd := h.addResource r
  constructor
  · rw [Transfer.placeResource, pairwise_map]
    refine h.apart.imp_of_mem fun {e f} he hf hef => ?_
    -- the new index lies behind every recorded one
    have he' : e.resource ≠ some s.resources.length := fun hi => absurd (h.room e he _ hi) (Nat.lt_irrefl _)
    have hf' : f.resource ≠ some s.resources.length := fun hi => absurd (h.room f hf _ hi) (Nat.lt_irrefl _)
    by_cases hev : e.item = v
    · have hfv : f.item ≠ v := fun hfv => hef.item (hev.trans hfv.symm)
      rw [if_pos hev, if_neg hfv]
      exact ⟨hef.item, fun i hi => by cases hi; exact hf'⟩
    rw [if_neg hev]
    split_ifs with hfv
    · refine ⟨hef.item, fun i hi hsame => ?_⟩
      cases hsame
      exact he' hi
    · exact hef
  · intro e he i hi
    obtain ⟨f, hf, rfl⟩ := mem_map.1 he
    change i < (Transfer.addResource s r).resources.length
    by_cases hfv : f.item = v
    · rw [if_pos hfv] at hi
      cases hi
      simp [Transfer.addResource]
    · rw [if_neg hfv] at hi
      exact hadd.room f hf i hi
  · intro hc e he i r' hi hget
    obtain ⟨f, hf, rfl⟩ := mem_map.1 he
    change (Transfer.addResource s r).resources[i]? = some r' at hget
    by_cases hfv : f.item = v
    · rw [if_pos hfv] at hi
      cases hi
      rw [Transfer.addResource, getElem?_concat_length] at hget
      cases hget
      exact hr
    · rw [if_neg hfv] at hi
      exact hadd.empty hc f hf i r' hi hget

/-! ## Serializing -/

/-- an encoding step: the snapshot stays well formed and gains exactly the stores that were allocated -/
structure Encodes (next : ℕ) (s : MalSerializedValue) (r : MalSerializedValue × ℕ) : Prop where
  ok : SnapshotOk r.1
  holds : ∀ x, resourcesHold x r.1.resources + allocated next x = resourcesHold x s.resources + allocated r.2 x

theorem resourcesHold_add (s : MalSerializedValue) (r : SerResource) (x : ℕ) :
    resourcesHold x (addResource s r).resources = resourcesHold x s.resources + held x r.data := by
  rw [resourcesHold, addResource, heldBy_append]
  rfl

theorem held_none (x : ℕ) : held x none = 0 := rfl

theorem held_next (next x : ℕ) : held x (some next) + allocated next x = allocated (next + 1) x := by
  simp only [held, allocated, Option.some.injEq]
  split_ifs <;> omega

theorem SnapshotOk.memoize (h : SnapshotOk s) (v : Transferable) : SnapshotOk (memoize s v) :=
  ⟨h.apart, h.room, h.empty⟩

theorem encodes_add {next : ℕ} (h : SnapshotOk s) (hr : r.data = none) : Encodes next s (addResource s r, next) :=
  ⟨h.addResource r, fun x => by rw [resourcesHold_add, hr]; rfl⟩

theorem encodes_place (next : ℕ) (h : SnapshotOk s) (v : Transferable)
    (hr : r.data = none) : Encodes next s (placeResource s v r, next) :=
  ⟨h.placeResource v hr, fun x => by
    change resourcesHold x (addResource s r).resources + _ = _
    rw [resourcesHold_add, hr]
    rfl⟩

variable {buffer : ArrayBuffer}

theorem encArrayBuffer_encodes {next : ℕ} {r : MalSerializedValue × ℕ}
    (h : SnapshotOk s) (hr : encArrayBuffer next s b buffer = .ok r) : Encodes next s r := by
  rw [encArrayBuffer] at hr
  split_ifs at hr
  · cases hr
    exact encodes_add h rfl
  · cases hr
    exact encodes_place _ h _ rfl
  · cases hr
    refine ⟨h.addResource _, fun x => ?_⟩
    rw [resourcesHold_add]
    have := held_next next x
    change resourcesHold x s.resources + held x (some next) + allocated next x = _ + allocated (next + 1) x
    omega
  · cases hr
    exact encodes_add h rfl

variable {memo items : List Transferable}

theorem encValue_encodes {v : Transferable} {r : MalSerializedValue × ℕ}
    (h : SnapshotOk s) (hr : encValue hooks st s memo v = .ok r) : Encodes st.nextStore s r := by
  have hmemo : ∀ {r' : MalSerializedValue × ℕ}, Encodes st.nextStore s r' → Encodes st.nextStore s (memoize r'.1 v, r'.2) :=
    fun he => ⟨he.ok.memoize v, he.holds⟩
  cases v with
  | buffer b =>
    rw [encValue] at hr
    split_ifs at hr
    · cases hr
      exact ⟨h, fun _ => rfl⟩
    cases hb : st.buffers[b]? with
    | none => rw [hb] at hr; cases hr
    | some buffer =>
      rw [hb] at hr
      dsimp only at hr
      cases he : encArrayBuffer st.nextStore s b buffer with
      | error e => rw [he] at hr; cases hr
      | ok r' =>
        rw [he] at hr
        cases hr
        exact hmemo (encArrayBuffer_encodes h he)
  | host object =>
    rw [encValue] at hr
    split_ifs at hr
    · cases hr
      exact ⟨h, fun _ => rfl⟩
    · cases hr
      exact hmemo (encodes_place _ h _ rfl)
    · cases hr
      exact hmemo (encodes_add h rfl)

theorem fillTransfers_encodes (next : ℕ) : ∀ (items : List Transferable)
    {s filled : MalSerializedValue}, SnapshotOk s → fillTransfers hooks buffers items s = .ok filled →
    Encodes next s (filled, next)
  | [], s, filled, h, hf => by
    cases hf
    exact ⟨h, fun _ => rfl⟩
  | v :: rest, s, filled, h, hf => by
    have hplace : ∀ {r : SerResource}, r.data = none → fillTransfers hooks buffers rest (placeResource s v r) = .ok filled →
        Encodes next s (filled, next) := by
      intro r hr hrest
      have h1 := encodes_place next h v hr
      have h2 := fillTransfers_encodes next rest h1.ok hrest
      exact ⟨h2.ok, fun x => (h2.holds x).trans (h1.holds x)⟩
    cases v with
    | buffer b =>
      rw [fillTransfers] at hf
      split_ifs at hf
      · exact fillTransfers_encodes next rest h hf
      cases hb : buffers[b]? with
      | none => rw [hb] at hf; cases hf
      | some buffer =>
        rw [hb] at hf
        exact hplace rfl hf
    | host object =>
      rw [fillTransfers] at hf
      split_ifs at hf
      · exact fillTransfers_encodes next rest h hf
      · exact hplace rfl hf

theorem validateItems_nodup : ∀ (rest : List (Option Transferable))
    {seen items : List Transferable}, seen.Nodup → validateItems hooks buffers seen rest = .ok items → items.Nodup
  | [], _, _, hseen, hv => by cases hv; exact hseen
  | none :: _, _, _, _, hv => by cases hv
  | some item :: rest, seen, items, hseen, hv => by
    have hnew : item ∉ seen → (seen ++ [item]).Nodup := by
      intro hmem
      rw [nodup_append]
      refine ⟨hseen, nodup_singleton item, fun a ha b hb => ?_⟩
      rw [mem_singleton.1 hb]
      exact fun h => hmem (h ▸ ha)
    cases item with
    | buffer b =>
      rw [validateItems] at hv
      split_ifs at hv with hmem
      cases hb : buffers[b]? with
      | none => rw [hb] at hv; cases hv
      | some buffer =>
        rw [hb] at hv
        dsimp only at hv
        split_ifs at hv
        exact validateItems_nodup rest (hnew hmem) hv
    | host object =>
      rw [validateItems] at hv
      split_ifs at hv with hmem
      exact validateItems_nodup rest (hnew hmem) hv

theorem newSnapshot_ok (h : items.Nodup) : SnapshotOk (newSnapshot items) := by
  refine ⟨?_, fun e he i hi => ?_, fun _ e he i r hi => ?_⟩
  · rw [newSnapshot, pairwise_map]
    exact h.imp fun hne => ⟨hne, nofun⟩
  · obtain ⟨v, -, rfl⟩ := mem_map.1 he
    cases hi
  · obtain ⟨v, -, rfl⟩ := mem_map.1 he
    cases hi

/-! ## Committing -/

structure Stolen (buffers : List ArrayBuffer) (resources : List SerResource) (pairs : List (ℕ × ℕ))
    (r : List ArrayBuffer × List SerResource) : Prop where
  holds : ∀ x, heldBy (·.data) x r.1 + resourcesHold x r.2 = heldBy (·.data) x buffers + resourcesHold x resources
  length : r.2.length = resources.length
  others : ∀ b : ℕ, (∀ p ∈ pairs, p.1 ≠ b) → r.1[b]? = buffers[b]?
  otherResources : ∀ i : ℕ, (∀ p ∈ pairs, p.2 ≠ i) → r.2[i]? = resources[i]?
  moved : ∀ p ∈ pairs, ∃ source source' resource, buffers[p.1]? = some source ∧ r.1[p.1]? = some source' ∧
    source'.detached = true ∧ source'.data = none ∧ r.2[p.2]? = some resource ∧ resource.data = source.data

theorem steal_all : ∀ (pairs : List (ℕ × ℕ)) (buffers : List ArrayBuffer) (resources : List SerResource),
    pairs.Pairwise (fun p q => p.1 ≠ q.1 ∧ p.2 ≠ q.2) →
    (∀ p ∈ pairs, ∃ source resource, buffers[p.1]? = some source ∧ resources[p.2]? = some resource ∧ resource.data = none) →
    Stolen buffers resources pairs (pairs.foldl steal (buffers, resources))
  | [], _, _, _, _ => ⟨fun _ => rfl, rfl, fun _ _ => rfl, fun _ _ => rfl, nofun⟩
  | p :: pairs, buffers, resources, hapart, hready => by
    obtain ⟨source, resource, hsource, hresource, hempty⟩ := hready p (mem_cons_self ..)
    obtain ⟨hp, hrest⟩ := List.pairwise_cons.1 hapart
    have hstep : steal (buffers, resources) p = (buffers.set p.1 { source.detach with sensitive := false },
          resources.set p.2 { resource with
            data := source.data, storeLease := source.storeLease, length := source.byteLength, sensitive := source.sensitive }) := by
      rw [steal]
      rw [hsource, hresource]
    rw [foldl_cons, hstep]
    generalize hsource' : ({ source.detach with sensitive := false } : ArrayBuffer) = source'
    generalize hresource' : ({ resource with
      data := source.data, storeLease := source.storeLease, length := source.byteLength, sensitive := source.sensitive } :
        SerResource) = resource'
    have hdata : source'.data = none ∧ source'.detached = true := by rw [← hsource']; exact ⟨rfl, rfl⟩
    have hdata' : resource'.data = source.data := by rw [← hresource']
    have hlt : p.1 < buffers.length := (List.getElem?_eq_some_iff.1 hsource).1
    have hlt' : p.2 < resources.length := (List.getElem?_eq_some_iff.1 hresource).1
    -- the other pairs see their buffers and resources as they were
    have hs := steal_all pairs (buffers.set p.1 source') (resources.set p.2 resource') hrest (by
      intro q hq
      obtain ⟨src, res, h1, h2, h3⟩ := hready q (mem_cons_of_mem _ hq)
      refine ⟨src, res, ?_, ?_, h3⟩
      · rw [getElem?_set_ne (hp q hq).1]
        exact h1
      · rw [getElem?_set_ne (hp q hq).2]
        exact h2)
    constructor
    · intro x
      have h1 := hs.holds x
      have h2 : heldBy (·.data) x (buffers.set p.1 source') + held x source.data = _ + held x source'.data := heldBy_set hsource _
      have h3 : resourcesHold x (resources.set p.2 resource') + held x resource.data = _ + held x resource'.data :=
        heldBy_set hresource _
      rw [hdata.1, held_none] at h2
      rw [hempty, held_none, hdata'] at h3
      simp only [resourcesHold] at h1 h3 ⊢
      omega
    · rw [hs.length, length_set]
    · intro b hb
      rw [hs.others b fun q hq => hb q (mem_cons_of_mem _ hq), getElem?_set_ne (hb p (mem_cons_self ..))]
    · intro i hi
      rw [hs.otherResources i fun q hq => hi q (mem_cons_of_mem _ hq), getElem?_set_ne (hi p (mem_cons_self ..))]
    · intro q hq
      rcases mem_cons.1 hq with rfl | hq
      · refine ⟨source, source', resource', hsource, ?_, hdata.2, hdata.1, ?_, hdata'⟩
        · rw [hs.others q.1 fun q' hq' => ((hp q' hq').1).symm, getElem?_set_self hlt]
        · rw [hs.otherResources q.2 fun q' hq' => ((hp q' hq').2).symm, getElem?_set_self hlt']
      obtain ⟨src, src', res, h1, h2, h3, h4, h5, h6⟩ := hs.moved q hq
      rw [getElem?_set_ne (hp q hq).1] at h1
      exact ⟨src, src', res, h1, h2, h3, h4, h5, h6⟩

theorem mem_stolen {p : ℕ × ℕ} :
    p ∈ stolen transfers ↔ ∃ e ∈ transfers, e.item = .buffer p.1 ∧ e.resource = some p.2 := by
  rw [stolen, mem_filterMap]
  constructor
  · rintro ⟨e, he, hp⟩
    obtain ⟨item, resource⟩ := e
    cases item with
    | host object => cases hp
    | buffer b =>
      cases resource with
      | none => cases hp
      | some i => cases hp; exact ⟨_, he, rfl, rfl⟩
  · rintro ⟨⟨item, resource⟩, he, rfl, rfl⟩
    exact ⟨_, he, rfl⟩

theorem stolen_apart (h : transfers.Pairwise Apart) : (stolen transfers).Pairwise fun p q => p.1 ≠ q.1 ∧ p.2 ≠ q.2 := by
  refine List.Pairwise.filterMap _ (fun e f hef p hp q hq => ?_) h
  obtain ⟨item, resource⟩ := e
  obtain ⟨item', resource'⟩ := f
  cases item <;> cases resource <;> cases hp
  cases item' <;> cases resource' <;> cases hq
  exact ⟨fun h => hef.item (congrArg Transferable.buffer h), fun h => hef.resource _ rfl (congrArg some h).symm⟩

theorem sourceOk_buffer {resources : List SerResource} {e : TransferEntry}
    (h : sourceOk buffers resources e = true) (hb : e.item = .buffer b) :
    ∃ i source resource, e.resource = some i ∧ buffers[b]? = some source ∧ resources[i]? = some resource := by
  rw [sourceOk, hb] at h
  dsimp only at h
  cases hs : buffers[b]? with
  | none => rw [hs] at h; cases h
  | some source =>
    cases hr : e.resource.bind (resources[·]?) with
    | none => rw [hs, hr] at h; cases h
    | some resource =>
      obtain ⟨i, hi, hres⟩ := Option.bind_eq_some_iff.1 hr
      exact ⟨i, source, resource, hi, rfl, hres⟩

theorem steal_valid (hok : SnapshotOk s) (hc : s.committed = false)
    (hvalid : s.transfers.all (sourceOk buffers s.resources) = true) :
    Stolen buffers s.resources (stolen s.transfers) ((stolen s.transfers).foldl steal (buffers, s.resources)) := by
  refine steal_all _ _ _ (stolen_apart hok.apart) fun p hp => ?_
  obtain ⟨e, he, hitem, hres⟩ := mem_stolen.1 hp
  obtain ⟨i, source, resource, hi, hsource, hresource⟩ := sourceOk_buffer (all_eq_true.1 hvalid e he) hitem
  rw [hres] at hi
  cases hi
  exact ⟨source, resource, hsource, hresource, hok.empty hc e he p.2 resource hres hresource⟩

/-! ## Decoding -/

theorem decBuffer_holds {take : Bool} {next : ℕ} {resource left : SerResource}
    (h : decBuffer take next resource = some (buffer, left, next')) (x : ℕ) :
    held x buffer.data + held x left.data + allocated next x = held x resource.data + allocated next' x := by
  have hnext := held_next next x
  rw [decBuffer] at h
  generalize (if resource.resizable = true then resource.maxLength else resource.length) = maxLength at h
  split_ifs at h
  · cases h
    rfl
  · cases h
    change held x (some next) + _ + _ = _
    omega
  cases h
  change held x none + _ + _ = _
  rw [held_none, Nat.zero_add]

theorem decValues_holds (take : Bool) : ∀ (events : List DecodeEvent) (d : Decoding),
    (decValues take events d).1.resources.length = d.resources.length ∧
    ∀ x, resourcesHold x (decValues take events d).1.resources + heldBy (·.data) x (decValues take events d).1.received +
        allocated d.nextStore x =
      resourcesHold x d.resources + heldBy (·.data) x d.received + allocated (decValues take events d).1.nextStore x
  | [], _ => ⟨rfl, fun _ => rfl⟩
  | .other :: events, d => decValues_holds take events d
  | .fails :: _, _ => ⟨rfl, fun _ => rfl⟩
  | .arrayBuffer index :: events, d => by
    rw [decValues]
    cases hr : d.resources[index]? with
    | none => exact ⟨rfl, fun _ => rfl⟩
    | some resource =>
      dsimp only
      cases hb : decBuffer take d.nextStore resource with
      | none => exact ⟨rfl, fun _ => rfl⟩
      | some result =>
        obtain ⟨buffer, left, next⟩ := result
        dsimp only
        obtain ⟨hlen, hholds⟩ := decValues_holds take events ⟨d.resources.set index left, d.received ++ [buffer], next⟩
        refine ⟨hlen.trans length_set, fun x => ?_⟩
        have h1 := hholds x
        have h2 := decBuffer_holds hb x
        have h3 : resourcesHold x (d.resources.set index left) + held x resource.data = _ + held x left.data := heldBy_set hr _
        dsimp only at h1
        rw [heldBy_append, heldBy_singleton] at h1
        simp only [resourcesHold] at h1 h3 ⊢
        omega

end Maligator.Transfer
