/-
Transfers over whole runs.

`step_inv`: every operation keeps one owner for every store and well formed snapshots.
`step_later`: what an operation can do to a snapshot that mal_serialize returned: a committed one stays committed and its
stores stay with it or go to the receiver, a failed one stays failed.
`transfer_all_or_nothing`: the steps of mal_serialize touch no buffer; a failed commit touches none either and validation fails
from then on; a successful one has detached every listed buffer, and each stolen store has one owner until the release.
-/
import Maligator.Transfer.Ownership

namespace Maligator.Transfer

open List

variable {st : State} {id : ℕ} {s : MalSerializedValue}

/-! ## Every operation keeps the invariant -/

theorem finished_some (h : st.finished id = some s) : st.snapshots[id]? = some (some s) ∧ s.encoding = none := by
  rw [State.finished] at h
  split at h
  · rename_i s' hs
    split_ifs at h with he
    cases h
    exact ⟨hs, by simpa using he⟩
  · cases h

theorem finished_of (hs : st.snapshots[id]? = some (some s)) (he : s.encoding = none) : st.finished id = some s := by
  rw [State.finished, hs]
  dsimp only
  rw [he, if_neg (by simp)]

variable {s' t s'' : MalSerializedValue} {st' st'' : State} {new : Option MalSerializedValue}
  {x next' : ℕ}

theorem finished_set (h : st.finished id = some s) (he : s'.encoding = s.encoding)
    (hset : st'.snapshots = st.snapshots.set id (some s')) : st'.finished id = some s' := by
  obtain ⟨hs, henc⟩ := finished_some h
  exact finished_of (by rw [hset, getElem?_set_self (List.getElem?_eq_some_iff.1 hs).1]) (he.trans henc)

theorem encoding_some {memo : List Transferable} (h : st.encoding id = some (s, memo)) :
    st.snapshots[id]? = some (some s) ∧ s.encoding = some memo := by
  rw [State.encoding] at h
  split at h
  · rename_i s' hs
    obtain ⟨m, hm, hpair⟩ := Option.map_eq_some_iff.1 h
    cases hpair
    exact ⟨hs, hm⟩
  · cases h

section

variable (h : Inv st) (hs : st.snapshots[id]? = some (some s))
include h hs

theorem inv_set (hsnap : st'.snapshots = st.snapshots.set id new)
    (hnew : ∀ s', new = some s' → SnapshotOk s') (hcons : ∀ x, senderHolds st' x + snapshotHolds x new + receiverHolds st' x +
      givenUp st' x + allocated st.nextStore x = senderHolds st x + resourcesHold x s.resources + receiverHolds st x +
      givenUp st x + allocated st'.nextStore x) : Inv st' := by
  refine ⟨Conserves.oneOwner (fun x => ?_) h.oneOwner, fun id' s' hs' => ?_⟩
  · have h1 := snapshots_set hs new x
    have h2 := hcons x
    rw [owners, owners, show snapshotsHold st' x = ((st.snapshots.set id new).map (snapshotHolds x)).sum by
      rw [snapshotsHold, hsnap]]
    omega
  have hlt : id < st.snapshots.length := (List.getElem?_eq_some_iff.1 hs).1
  rw [hsnap] at hs'
  by_cases hid : id = id'
  · rw [← hid, getElem?_set_self hlt] at hs'
    exact hnew s' (Option.some.inj hs')
  · rw [getElem?_set_ne hid] at hs'
    exact h.snapshot id' s' hs'

theorem release_inv (hholds : ∀ x, resourcesHold x s'.resources = resourcesHold x s.resources)
    : Inv (serializedValueRelease st id s') := by
  refine inv_set h hs rfl nofun fun x => ?_
  have h2 := hholds x
  simp only [senderHolds, receiverHolds, givenUp, snapshotHolds, serializedValueRelease, heldBy_append, heldBy_filterMap]
  simp only [resourcesHold] at h2 ⊢
  omega

theorem encode_inv {r : MalSerializedValue × ℕ} (he : Encodes st.nextStore s r)
    : Inv { st with snapshots := st.snapshots.set id (some r.1), nextStore := r.2 } := by
  refine inv_set h hs rfl (fun _ hn => by cases hn; exact he.ok) fun x => ?_
  have h2 := he.holds x
  simp only [senderHolds, receiverHolds, givenUp, snapshotHolds]
  omega

theorem finishSerialize_inv (hooks : Hooks) : Inv (finishSerialize hooks st id s).1 := by
  rw [finishSerialize]
  cases hf : fillTransfers hooks st.buffers (s.transfers.map (·.item)) s with
  | error e => exact release_inv h hs fun _ => rfl
  | ok filled =>
    have he := fillTransfers_encodes st.nextStore _ (h.snapshot id s hs) hf
    dsimp only
    cases hv : serializedValueValidate hooks st.buffers filled with
    | some error => exact release_inv h hs fun x => by have := he.holds x; dsimp only at this; omega
    | none =>
      exact encode_inv h hs (show Encodes st.nextStore s ({ filled with encoding := none }, st.nextStore) from
        ⟨⟨he.ok.apart, he.ok.room, he.ok.empty⟩, he.holds⟩)

end

variable {hooks : Hooks}

theorem validate_none {buffers : List ArrayBuffer} (hc : s.committed = false)
    (h : serializedValueValidate hooks buffers s = none) : s.abortError = none ∧ s.transfers.all (sourceOk buffers s.resources) = true := by
  rw [serializedValueValidate, hc, if_neg (by decide)] at h
  cases ha : s.abortError with
  | some error => rw [ha] at h; cases h
  | none =>
    rw [ha] at h
    split_ifs at h with h1
    exact ⟨rfl, by simpa using h1⟩

theorem serializeCommit_inv (h : Inv st) (hs : st.snapshots[id]? = some (some s)) (hooks : Hooks) :
    Inv (serializeCommit hooks st id s).1 := by
  have hok := h.snapshot id s hs
  rw [serializeCommit]
  split_ifs with hc
  · exact h
  rw [Bool.not_eq_true] at hc
  cases hv : serializedValueValidate hooks st.buffers s with
  | some error =>
    cases s.abortError with
    | some _ => exact h
    | none => exact encode_inv h hs (show Encodes st.nextStore s ({ s with abortError := some error }, st.nextStore) from
        ⟨⟨hok.apart, hok.room, hok.empty⟩, fun _ => rfl⟩)
  | none =>
    have hst := steal_valid hok hc (validate_none hc hv).2
    refine inv_set h hs rfl (fun s' hn => ?_) fun x => ?_
    · cases hn
      exact ⟨hok.apart, fun e he i hi => by rw [hst.length]; exact hok.room e he i hi, nofun⟩
    · have h2 := hst.holds x
      simp only [senderHolds, receiverHolds, givenUp, snapshotHolds]
      omega

theorem deserialize_inv (h : Inv st) (hs : st.snapshots[id]? = some (some s)) (take : Bool) (events : List DecodeEvent) :
    Inv (deserialize take st id s events).1 := by
  have hok := h.snapshot id s hs
  rw [deserialize]
  split_ifs with hconsumed hwait
  · exact h
  · exact h
  obtain ⟨hlen, hholds⟩ := decValues_holds take events ⟨s.resources, st.received, st.nextStore⟩
  dsimp only at hlen hholds ⊢
  refine inv_set h hs rfl (fun s' hn => ?_) fun x => ?_
  · cases hn
    refine ⟨hok.apart, fun e he i hi => by rw [hlen]; exact hok.room e he i hi, fun hc e he => ?_⟩
    -- an uncommitted snapshot that is decoded lists nothing
    have hnone : s.transfers = [] := by
      have hc' : s.committed = false := hc
      rw [hc'] at hwait
      simpa using hwait
    rw [hnone] at he
    cases he
  · have h2 := hholds x
    simp only [senderHolds, receiverHolds, givenUp, snapshotHolds]
    omega

theorem updateBuffer_spec (st : State) (b : ℕ) (f : ArrayBuffer → ArrayBuffer) :
    Conserves st (updateBuffer st b f) ∧ (updateBuffer st b f).snapshots = st.snapshots ∧
      (updateBuffer st b f).received = st.received := by
  rw [updateBuffer]
  cases hb : st.buffers[b]? with
  | none => exact ⟨Conserves.refl st, rfl, rfl⟩
  | some buffer =>
    dsimp only
    generalize hnew : ({ f buffer with data := buffer.data } : ArrayBuffer) = new
    have hdata : new.data = buffer.data := by rw [← hnew]
    refine ⟨fun x => ?_, rfl, rfl⟩
    have h1 : heldBy (·.data) x (st.buffers.set b new) + held x buffer.data = _ + held x new.data := heldBy_set hb _
    rw [hdata] at h1
    simp only [owners, senderHolds, receiverHolds, givenUp, snapshotsHold]
    omega

theorem senderStep_spec (st : State) (op : SenderOp) : Conserves st (senderStep st op) ∧
    (senderStep st op).snapshots = st.snapshots ∧ (senderStep st op).received = st.received := by
  cases op with
  | allocate byteLength maxByteLength resizable =>
    rw [senderStep]
    have hnext := held_next st.nextStore
    split_ifs
    all_goals
      refine ⟨fun x => ?_, rfl, rfl⟩
      have := hnext x
      simp only [owners, senderHolds, receiverHolds, givenUp, snapshotsHold, heldBy_append, heldBy_singleton, newArrayBuffer,
        held_none]
      omega
  | detach b =>
    rw [senderStep]
    cases hb : st.buffers[b]? with
    | none => exact ⟨Conserves.refl st, rfl, rfl⟩
    | some buffer =>
      dsimp only
      split_ifs
      · exact ⟨Conserves.refl st, rfl, rfl⟩
      refine ⟨fun x => ?_, rfl, rfl⟩
      have h1 : heldBy (·.data) x (st.buffers.set b buffer.detach) + held x buffer.data = _ + held x none := heldBy_set hb _
      have h2 : heldBy some x buffer.data.toList = held x buffer.data := by
        cases buffer.data with
        | none => rfl
        | some y => exact heldBy_singleton y
      simp only [owners, senderHolds, receiverHolds, givenUp, snapshotsHold, heldBy_append]
      rw [held_none] at h1
      omega
  | moveStore b byteLength maxByteLength resizable immutable =>
    rw [senderStep]
    cases hb : st.buffers[b]? with
    | none => exact ⟨Conserves.refl st, rfl, rfl⟩
    | some source =>
      dsimp only
      split_ifs
      · exact ⟨Conserves.refl st, rfl, rfl⟩
      generalize hgone : ({ source.detach with sensitive := false } : ArrayBuffer) = gone
      have hdata : gone.data = none := by rw [← hgone]; rfl
      refine ⟨fun x => ?_, rfl, rfl⟩
      have h1 : heldBy (·.data) x (st.buffers.set b gone) + held x source.data = _ + held x gone.data := heldBy_set hb _
      rw [hdata] at h1
      simp only [owners, senderHolds, receiverHolds, givenUp, snapshotsHold, heldBy_append, heldBy_singleton, newArrayBuffer]
      rw [held_none] at h1
      omega
  | resize b byteLength | retainPin b | releasePin b | freeze b | retainStore b lease => exact updateBuffer_spec st b _

theorem step_inv (h : Inv st) (op : Op) : Inv (step st op).1 := by
  cases op with
  | sender op =>
    obtain ⟨hc, hsnap, -⟩ := senderStep_spec st op
    exact ⟨hc.oneOwner h.oneOwner, fun id s hs => h.snapshot id s (by rwa [step, hsnap] at hs)⟩
  | beginSerialize hooks list =>
    rw [step]
    cases hv : encValidateTransfers hooks st.buffers list with
    | error e => exact h
    | ok items =>
      have hnodup : items.Nodup := by
        cases list with
        | undefined => cases hv; exact nodup_nil
        | notArray => cases hv
        | items list => exact validateItems_nodup list nodup_nil hv
      refine ⟨Conserves.oneOwner (fun x => ?_) h.oneOwner, fun id s hs => ?_⟩
      · simp [owners, senderHolds, receiverHolds, givenUp, snapshotsHold, snapshotHolds, newSnapshot, resourcesHold]
      rw [getElem?_append] at hs
      split_ifs at hs
      · exact h.snapshot id s hs
      rw [getElem?_singleton] at hs
      split_ifs at hs
      cases hs
      exact newSnapshot_ok hnodup
  | encode hooks id v =>
    rw [step]
    cases he : st.encoding id with
    | none => exact h
    | some pair =>
      obtain ⟨s, memo⟩ := pair
      have hs := (encoding_some he).1
      dsimp only
      cases hv : encValue hooks st s memo v with
      | error e => exact release_inv h hs fun _ => rfl
      | ok r => exact encode_inv h hs (encValue_encodes (h.snapshot id s hs) hv)
  | encodeFails id =>
    rw [step]
    cases he : st.encoding id with
    | none => exact h
    | some pair => exact release_inv h (encoding_some he).1 fun _ => rfl
  | finishSerialize hooks id =>
    rw [step]
    cases he : st.encoding id with
    | none => exact h
    | some pair => exact finishSerialize_inv h (encoding_some he).1 hooks
  | validate hooks id =>
    rw [step]
    cases st.finished id <;> exact h
  | commit hooks id =>
    rw [step]
    cases hf : st.finished id with
    | none => exact h
    | some s => exact serializeCommit_inv h (finished_some hf).1 hooks
  | deserialize take id events =>
    rw [step]
    cases hf : st.finished id with
    | none => exact h
    | some s => exact deserialize_inv h (finished_some hf).1 take events
  | release id =>
    rw [step]
    cases hf : st.finished id with
    | none => exact h
    | some s => exact release_inv h (finished_some hf).1 fun _ => rfl

theorem run_inv (ops : List Op) : ∀ {st : State}, Inv st → Inv (run st ops) := by
  induction ops with
  | nil => exact id
  | cons op ops ih => exact fun h => ih (step_inv h op)

/-! ## What later operations can do to a snapshot -/

theorem decValues_received (take : Bool) : ∀ (events : List DecodeEvent) (d : Decoding),
    d.received <+: (decValues take events d).1.received ∧ d.nextStore ≤ (decValues take events d).1.nextStore
  | [], _ => ⟨prefix_rfl, le_rfl⟩
  | .other :: events, d => decValues_received take events d
  | .fails :: _, _ => ⟨prefix_rfl, le_rfl⟩
  | .arrayBuffer index :: events, d => by
    rw [decValues]
    cases d.resources[index]? with
    | none => exact ⟨prefix_rfl, le_rfl⟩
    | some resource =>
      dsimp only
      cases hb : decBuffer take d.nextStore resource with
      | none => exact ⟨prefix_rfl, le_rfl⟩
      | some result =>
        obtain ⟨buffer, left, next⟩ := result
        obtain ⟨h1, h2⟩ := decValues_received take events ⟨d.resources.set index left, d.received ++ [buffer], next⟩
        have hnext : d.nextStore ≤ next := by
          rw [decBuffer] at hb
          split_ifs at hb <;> cases hb <;> omega
        exact ⟨(prefix_append _ _).trans h1, hnext.trans h2⟩

theorem heldBy_mono {α : Type} {data : α → Option ℕ} {front list : List α} (h : front <+: list) :
    heldBy data x front ≤ heldBy data x list := by
  obtain ⟨back, rfl⟩ := h
  rw [heldBy_append]
  omega

theorem allocated_mono {next : ℕ} (h : next ≤ next') (x : ℕ) : allocated next x ≤ allocated next' x := by
  rw [allocated, allocated]
  split_ifs <;> omega

/-- a finished snapshot some operations later -/
structure Later (id : ℕ) (st : State) (s : MalSerializedValue) (st' : State) (s' : MalSerializedValue) : Prop where
  finished : st'.finished id = some s'
  committed : s.committed = true → s'.committed = true
  holds : s.committed = true → ∀ x,
    resourcesHold x s.resources + receiverHolds st x ≤ resourcesHold x s'.resources + receiverHolds st' x
  aborted : s.committed = false → s.abortError.isSome = true → s'.committed = false ∧ s'.abortError = s.abortError

section

variable (hf : st.finished id = some s)
include hf

variable {id' : ℕ}

theorem later_same (hs : st'.snapshots[id]? = st.snapshots[id]?) (hr : st.received <+: st'.received)
    : Later id st s st' s :=
  ⟨finished_of (hs.trans (finished_some hf).1) (finished_some hf).2, fun h => h,
    fun _ _ => Nat.add_le_add_left (heldBy_mono hr) _, fun h _ => ⟨h, rfl⟩⟩

theorem later_other (hne : id' ≠ id)
    (hs : st'.snapshots = st.snapshots.set id' new) (hr : st.received <+: st'.received) : Later id st s st' s :=
  later_same hf (by rw [hs, getElem?_set_ne hne]) hr

theorem ne_of_encoding {pair : MalSerializedValue × List Transferable} (he : st.encoding id' = some pair)
    : id' ≠ id := by
  rintro rfl
  obtain ⟨h1, h2⟩ := finished_some hf
  obtain ⟨h3, h4⟩ := encoding_some he
  rw [h1] at h3
  cases h3
  rw [h2] at h4
  cases h4

def Updates (id : ℕ) (st : State) (s : MalSerializedValue) (st' : State) : Prop :=
  st' = st ∨ ∃ s', st'.snapshots = st.snapshots.set id (some s') ∧ st.received <+: st'.received ∧ Later id st s st' s'

theorem serializeCommit_updates (hooks : Hooks) : Updates id st s (serializeCommit hooks st id s).1 := by
  rw [serializeCommit]
  split_ifs with hc
  · exact .inl rfl
  cases hv : serializedValueValidate hooks st.buffers s with
  | some error =>
    cases ha : s.abortError with
    | some e => exact .inl rfl
    | none => exact .inr ⟨_, rfl, prefix_rfl, finished_set hf rfl rfl, (absurd · hc), (absurd · hc), fun _ h => by simp [ha] at h⟩
  | none =>
    have ha := (validate_none (by simpa using hc) hv).1
    exact .inr ⟨_, rfl, prefix_rfl, finished_set hf rfl rfl, (absurd · hc), (absurd · hc), fun _ h => by simp [ha] at h⟩

theorem deserialize_updates (take : Bool) (events : List DecodeEvent) :
    Updates id st s (deserialize take st id s events).1 := by
  rw [deserialize]
  split_ifs
  · exact .inl rfl
  · exact .inl rfl
  have hholds := (decValues_holds take events ⟨s.resources, st.received, st.nextStore⟩).2
  obtain ⟨hread, hnext⟩ := decValues_received take events ⟨s.resources, st.received, st.nextStore⟩
  dsimp only at hholds hread hnext ⊢
  refine .inr ⟨_, rfl, hread, finished_set hf rfl rfl, fun h => h, fun _ x => ?_, fun h _ => ⟨h, rfl⟩⟩
  have h1 := hholds x
  have h2 := allocated_mono hnext x
  simp only [receiverHolds]
  omega

theorem Updates.later (hf' : st.finished id' = some t) (h : Updates id' st t st') : ∃ s', Later id st s st' s' := by
  rcases h with rfl | ⟨s', hset, hr, hl⟩
  · exact ⟨s, later_same hf rfl prefix_rfl⟩
  by_cases hid : id' = id
  · subst hid
    rw [hf] at hf'
    cases hf'
    exact ⟨s', hl⟩
  · exact ⟨s, later_other hf hid hset hr⟩

end

/-- **A step of mal_serialize** touches no buffer and no finished snapshot. -/
theorem serialize_step (st : State) {op : Op} (h : op.isSerialize = true) : (step st op).1.buffers = st.buffers ∧
    (step st op).1.received = st.received ∧
    ∀ id s, st.finished id = some s → (step st op).1.snapshots[id]? = st.snapshots[id]? := by
  have hset : ∀ {id' pair new}, st.encoding id' = some pair → ∀ id s, st.finished id = some s →
      (st.snapshots.set id' new)[id]? = st.snapshots[id]? := fun he id s hf => getElem?_set_ne (ne_of_encoding hf he)
  cases op with
  | beginSerialize hooks list =>
    rw [step]
    cases encValidateTransfers hooks st.buffers list with
    | error e => exact ⟨rfl, rfl, fun _ _ _ => rfl⟩
    | ok items =>
      exact ⟨rfl, rfl, fun id s hf => getElem?_append_left (List.getElem?_eq_some_iff.1 (finished_some hf).1).1⟩
  | encode hooks id v =>
    rw [step]
    cases he : st.encoding id with
    | none => exact ⟨rfl, rfl, fun _ _ _ => rfl⟩
    | some pair =>
      dsimp only
      cases encValue hooks st pair.1 pair.2 v <;> exact ⟨rfl, rfl, hset he⟩
  | encodeFails id =>
    rw [step]
    cases he : st.encoding id with
    | none => exact ⟨rfl, rfl, fun _ _ _ => rfl⟩
    | some pair => exact ⟨rfl, rfl, hset he⟩
  | finishSerialize hooks id =>
    rw [step]
    cases he : st.encoding id with
    | none => exact ⟨rfl, rfl, fun _ _ _ => rfl⟩
    | some pair =>
      dsimp only
      rw [finishSerialize]
      cases fillTransfers hooks st.buffers (pair.1.transfers.map (·.item)) pair.1 with
      | error e => exact ⟨rfl, rfl, hset he⟩
      | ok filled =>
        dsimp only
        cases serializedValueValidate hooks st.buffers filled <;> exact ⟨rfl, rfl, hset he⟩
  | _ => cases h

theorem step_later (hf : st.finished id = some s) (op : Op) (hop : op ≠ .release id) : ∃ s', Later id st s (step st op).1 s' := by
  have hsame : Later id st s st s := later_same hf rfl prefix_rfl
  have hserialize : op.isSerialize = true → ∃ s', Later id st s (step st op).1 s' := by
    intro h
    obtain ⟨-, hrec, hsnap⟩ := serialize_step st h
    exact ⟨s, later_same hf (hsnap id s hf) (hrec ▸ prefix_rfl)⟩
  cases op with
  | sender op =>
    obtain ⟨-, hsnap, hrec⟩ := senderStep_spec st op
    exact ⟨s, later_same hf (by rw [step, hsnap]) ⟨[], by rw [step, hrec, append_nil]⟩⟩
  | beginSerialize | encode | encodeFails | finishSerialize => exact hserialize rfl
  | validate hooks id' =>
    rw [step]
    cases st.finished id' <;> exact ⟨s, hsame⟩
  | commit hooks id' =>
    rw [step]
    cases hf' : st.finished id' with
    | none => exact ⟨s, hsame⟩
    | some t => exact (serializeCommit_updates hf' hooks).later hf hf'
  | deserialize take id' events =>
    rw [step]
    cases hf' : st.finished id' with
    | none => exact ⟨s, hsame⟩
    | some t => exact (deserialize_updates hf' take events).later hf hf'
  | release id' =>
    have hid : id' ≠ id := fun h => hop (by rw [h])
    rw [step]
    cases st.finished id' with
    | none => exact ⟨s, hsame⟩
    | some t => exact ⟨s, later_other hf hid rfl prefix_rfl⟩

theorem Later.trans (h1 : Later id st s st' s') (h2 : Later id st' s' st'' s'') : Later id st s st'' s'' where
  finished := h2.finished
  committed h := h2.committed (h1.committed h)
  holds h x := (h1.holds h x).trans (h2.holds (h1.committed h) x)
  aborted hc ha := by
    obtain ⟨h3, h4⟩ := h1.aborted hc ha
    obtain ⟨h5, h6⟩ := h2.aborted h3 (by rw [h4]; exact ha)
    exact ⟨h5, h6.trans h4⟩

theorem run_later (ops : List Op) : ∀ {st : State} {s : MalSerializedValue}, st.finished id = some s →
    (∀ op ∈ ops, op ≠ .release id) → ∃ s', Later id st s (run st ops) s' := by
  induction ops with
  | nil => exact fun {st s} hf _ => ⟨s, later_same hf rfl prefix_rfl⟩
  | cons op ops ih =>
    intro st s hf hops
    obtain ⟨hop, hrest⟩ := forall_mem_cons.1 hops
    obtain ⟨s', h1⟩ := step_later hf op hop
    obtain ⟨s'', h2⟩ := ih h1.finished hrest
    exact ⟨s'', h1.trans h2⟩

/-! ## All or nothing -/

/-- **A failed commit** changes no buffer and is remembered -/
theorem commit_fails (h : (step st (.commit hooks id)).2 = some false) :
    (step st (.commit hooks id)).1.buffers = st.buffers ∧
      ∃ s', (step st (.commit hooks id)).1.finished id = some s' ∧ s'.committed = false ∧ s'.abortError.isSome = true := by
  rw [step] at h ⊢
  cases hf : st.finished id with
  | none => rw [hf] at h; cases h
  | some s =>
    rw [hf] at h
    dsimp only [returning] at h ⊢
    rw [serializeCommit] at h ⊢
    by_cases hc : s.committed = true
    · rw [if_pos hc] at h
      cases h
    rw [if_neg hc] at h ⊢
    cases hv : serializedValueValidate hooks st.buffers s with
    | none => rw [hv] at h; cases h
    | some error =>
      cases ha : s.abortError with
      | some e => exact ⟨rfl, s, hf, by simpa using hc, by rw [ha]; rfl⟩
      | none => exact ⟨rfl, { s with abortError := some error }, finished_set hf rfl rfl, by simpa using hc, rfl⟩

theorem validate_aborted (hf : st.finished id = some s) (hc : s.committed = false)
    (ha : s.abortError.isSome = true) : (step st (.validate hooks id)).2 = some false := by
  rw [step, hf]
  dsimp only
  rw [serializedValueValidate, hc]
  obtain ⟨error, he⟩ := Option.isSome_iff_exists.1 ha
  rw [he]
  rfl

theorem commit_again (hf : st.finished id = some s) (hc : s.committed = true) :
    step st (.commit hooks id) = (st, some true) := by
  rw [step, hf]
  dsimp only [returning]
  rw [serializeCommit, if_pos hc]

theorem commit_succeeds (hinv : Inv st) (hf : st.finished id = some s) (hc : s.committed = false)
    (h : (step st (.commit hooks id)).2 = some true) :
    ∃ s', (step st (.commit hooks id)).1.finished id = some s' ∧ s'.committed = true ∧
      ∀ b, (∃ e ∈ s.transfers, e.item = .buffer b) → ∃ buffer buffer', st.buffers[b]? = some buffer ∧
        (step st (.commit hooks id)).1.buffers[b]? = some buffer' ∧ buffer'.detached = true ∧ buffer'.data = none ∧
        ∀ x, buffer.data = some x → 0 < resourcesHold x s'.resources := by
  rw [step, hf] at h ⊢
  dsimp only [returning] at h ⊢
  rw [serializeCommit, if_neg (by rw [hc]; decide)] at h ⊢
  cases hv : serializedValueValidate hooks st.buffers s with
  | some error =>
    rw [hv] at h
    cases ha : s.abortError with
    | some e | none => rw [ha] at h; cases h
  | none =>
    have hall := (validate_none hc hv).2
    have hst := steal_valid (hinv.snapshot id s (finished_some hf).1) hc hall
    generalize (stolen s.transfers).foldl steal (st.buffers, s.resources) = r at hst ⊢
    refine ⟨{ s with resources := r.2, committed := true }, finished_set hf rfl rfl, rfl, ?_⟩
    rintro b ⟨e, he, hitem⟩
    obtain ⟨i, source, resource, hi, -, -⟩ := sourceOk_buffer (all_eq_true.1 hall e he) hitem
    obtain ⟨src, src', res, h1, h2, h3, h4, h5, h6⟩ := hst.moved (b, i) (mem_stolen.2 ⟨e, he, hitem, hi⟩)
    exact ⟨src, src', h1, h2, h3, h4, fun x hx => heldBy_pos h5 (h6.trans hx)⟩

theorem holds_once (hinv : Inv st) (hf : st.finished id = some s)
    (hpos : 0 < resourcesHold x s.resources + receiverHolds st x) :
    resourcesHold x s.resources + receiverHolds st x = 1 ∧ senderHolds st x = 0 ∧ givenUp st x = 0 := by
  have hone := hinv.oneOwner x
  have hset := snapshots_set (finished_some hf).1 none x
  have hle : allocated st.nextStore x ≤ 1 := by rw [allocated]; split_ifs <;> omega
  simp only [owners] at hone
  simp only [snapshotHolds] at hset
  omega

/-- **Transfer is all-or-nothing and every backing store has one owner.** -/
theorem transfer_all_or_nothing (start : State) (hstart : Inv start) (ops : List Op) : let st := run start ops
    OneOwner st ∧
    (∀ op : Op, op.isSerialize = true → (step st op).1.buffers = st.buffers) ∧
    (∀ hooks id, (step st (.commit hooks id)).2 = some false → let failed := (step st (.commit hooks id)).1
      failed.buffers = st.buffers ∧
      ∀ later : List Op, (∀ op ∈ later, op ≠ .release id) →
        ∀ hooks', (step (run failed later) (.validate hooks' id)).2 = some false) ∧
    ∀ hooks id s, st.finished id = some s → (step st (.commit hooks id)).2 = some true →
      let committed := (step st (.commit hooks id)).1
      (∀ hooks', step committed (.commit hooks' id) = (committed, some true)) ∧
      (s.committed = false → ∀ b, (∃ e ∈ s.transfers, e.item = .buffer b) →
        ∃ buffer buffer', st.buffers[b]? = some buffer ∧ committed.buffers[b]? = some buffer' ∧ buffer'.detached = true ∧
          buffer'.data = none ∧
          ∀ x, buffer.data = some x → (∃ s', committed.finished id = some s' ∧ resourcesHold x s'.resources = 1) ∧
            ∀ later : List Op, (∀ op ∈ later, op ≠ .release id) → ∃ s', (run committed later).finished id = some s' ∧
              resourcesHold x s'.resources + receiverHolds (run committed later) x = 1 ∧
              senderHolds (run committed later) x = 0 ∧ givenUp (run committed later) x = 0) := by
  intro st
  have hinv : Inv st := run_inv ops hstart
  refine ⟨hinv.oneOwner, fun op hop => (serialize_step st hop).1, ?_, ?_⟩
  · intro hooks id hfail
    obtain ⟨hbuf, s', hf, hc, ha⟩ := commit_fails hfail
    refine ⟨hbuf, fun later hlater hooks' => ?_⟩
    obtain ⟨s'', hl⟩ := run_later later hf hlater
    obtain ⟨hc', ha'⟩ := hl.aborted hc ha
    exact validate_aborted hl.finished hc' (by rw [ha']; exact ha)
  intro hooks id s hf hok
  have hinv' : Inv (step st (.commit hooks id)).1 := step_inv hinv _
  by_cases hc : s.committed = true
  · rw [commit_again hf hc]
    exact ⟨fun hooks' => commit_again hf hc, fun h => absurd hc (by rw [h]; decide)⟩
  rw [Bool.not_eq_true] at hc
  obtain ⟨s', hf', hc', hmoved⟩ := commit_succeeds hinv hf hc hok
  refine ⟨fun hooks' => commit_again hf' hc', fun _ b hb => ?_⟩
  obtain ⟨buffer, buffer', h1, h2, h3, h4, h5⟩ := hmoved b hb
  refine ⟨buffer, buffer', h1, h2, h3, h4, fun x hx => ⟨⟨s', hf', ?_⟩, fun later hlater => ?_⟩⟩
  · have hpos := h5 x hx
    have honce := (holds_once hinv' hf' (x := x) (by omega)).1
    omega
  · obtain ⟨s'', hl⟩ := run_later later hf' hlater
    have hpos := h5 x hx
    have hle := hl.holds hc' x
    exact ⟨s'', hl.finished, holds_once (run_inv later hinv') hl.finished (by omega)⟩

def twoBuffers : State where
  buffers := [newArrayBuffer (some 0) 8 8 false, newArrayBuffer (some 1) 4 4 false]
  snapshots := []
  received := []
  released := []
  nextStore := 2

def noHooks : Hooks := ⟨false, fun _ => false, fun _ => false, fun _ => false, fun _ => true⟩

theorem twoBuffers_inv : Inv twoBuffers := by
  refine ⟨fun x => ?_, nofun⟩
  match x with
  | 0 => rfl
  | 1 => rfl
  | x + 2 => simp [owners, senderHolds, snapshotsHold, receiverHolds, givenUp, twoBuffers, heldBy, held, allocated, newArrayBuffer]

/-- the first buffer is listed and transferred, then adopted by the receiver -/
theorem transfer_all_or_nothing_one_buffer : ∃ s',
    (run twoBuffers [.beginSerialize noHooks (.items [some (.buffer 0)]), .encode noHooks 0 (.buffer 0),
      .encode noHooks 0 (.buffer 1), .finishSerialize noHooks 0, .commit noHooks 0,
      .deserialize true 0 [.arrayBuffer 0, .arrayBuffer 1]]).finished 0 = some s' ∧
    resourcesHold 0 s'.resources + receiverHolds (run twoBuffers [.beginSerialize noHooks (.items [some (.buffer 0)]),
      .encode noHooks 0 (.buffer 0), .encode noHooks 0 (.buffer 1), .finishSerialize noHooks 0, .commit noHooks 0,
      .deserialize true 0 [.arrayBuffer 0, .arrayBuffer 1]]) 0 = 1 := by
  obtain ⟨-, -, -, hcommit⟩ := transfer_all_or_nothing twoBuffers twoBuffers_inv
    [.beginSerialize noHooks (.items [some (.buffer 0)]), .encode noHooks 0 (.buffer 0), .encode noHooks 0 (.buffer 1),
      .finishSerialize noHooks 0]
  obtain ⟨-, hmoved⟩ := hcommit noHooks 0 _ rfl rfl
  obtain ⟨buffer, buffer', h1, -, -, -, h5⟩ := hmoved rfl 0 ⟨_, mem_cons_self .., rfl⟩
  have hdata : buffer.data = some 0 := by
    cases h1
    rfl
  obtain ⟨s', hf, hone, -⟩ := (h5 0 hdata).2 [.deserialize true 0 [.arrayBuffer 0, .arrayBuffer 1]]
    (fun op hop => by rw [mem_singleton.1 hop]; exact nofun)
  exact ⟨s', hf, hone⟩

end Maligator.Transfer
