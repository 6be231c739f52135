/-
Async generators: the request queue and its driver in builtin_async_generator.c.

User code runs while the driver is on the C stack at two places: a settlement reads `then` of the iterator result, and a
return request on a completed generator resolves its value. `Frame` has these and the calls still to be made; an event is
one thing that happens next: a call of next, throw or return, the frame on top going on, user code coming back, the end of
a body step, or the microtask of an awaited return. A `then` that throws or is callable is kept apart from a plain one, and
so is a resume that finds the frame stack full.

`calmStep_serves`: a calm step takes at most one request, the front one, and settles it with the outcome of that step.
`requests_served`: in runs of calm steps one thing is in flight at a time and nothing waits when none is.
`return_awaited_twice` has a call from inside the second place: the same request is awaited twice.
-/
import Mathlib.Data.List.Range

namespace Maligator.AsyncGenerator

open Option Bool

/-- MAL_GENERATOR_RESUME_NEXT, _THROW and _RETURN -/
inductive Mode where
  | next
  | throw
  | ret
deriving DecidableEq, Repr

inductive GeneratorState where
  | suspendedStart
  | suspendedYield
  | executing
  | completed
deriving DecidableEq, Repr

structure Request (V : Type) where
  promise : ℕ
  mode : Mode
  value : V

/-- what a request's promise is settled with -/
inductive Outcome (V : Type) where
  | result (value : V) (done : Bool)
  | reject (reason : V)

/-- The values: `settlesWith v isReject w` says that the promise a return value `v` resolves to can settle with `w`. A
primitive is not resolved but queued as its own fulfillment. -/
structure Values (V : Type) where
  undefined : V
  isObject : V → Bool
  settlesWith : V → Bool → V → Bool
  primitive : ∀ v isReject w, isObject v = false → settlesWith v isReject w = true → isReject = false ∧ w = v

inductive Frame (V : Type) where
  /-- `mal_async_generator_resume_next` is to be called -/
  | resumeNext
  /-- the head of its loop -/
  | drain
  /-- user code in `mal_agen_resolve_result`: `then` of the iterator result is read, the request is off the queue -/
  | inSettle (request : Request V) (value : V) (done : Bool)
  /-- user code in `mal_agen_await_return`, which resolves the value -/
  | inResolve (value : V)

/-- The generator with its queue, what is in flight for it (a body activation, the return values awaited), the driver's
frames, the settlements so far, the requests whose promise a thenable job is to settle and the number of promises handed
out. -/
structure Driver (V : Type) where
  state : GeneratorState
  running : Bool
  queue : List (Request V)
  body : Bool
  returnAwaits : List V
  frames : List (Frame V)
  settled : List (Request V × Outcome V)
  adopting : List (Request V)
  issued : ℕ

/-- how the body gives up control: `mal_async_generator_yield`, `_return` and `_throw_done` -/
inductive BodyEnd (V : Type) where
  | yield (value : V)
  | ret (value : V)
  | throwDone (reason : V)

/-- what `mal_promise_settle_internal` reads as `then` of the iterator result -/
inductive ThenRead (V : Type) where
  | plain
  | callable
  | throws (error : V)

inductive Event (V : Type) where
  | call (mode : Mode) (value : V)
  | run
  /-- `mal_vm_resume_generator` finds the frame stack full -/
  | refused
  | thenRead (read : ThenRead V)
  /-- `mal_promise_resolve_value` comes back, by a throw or not -/
  | resolved (thrown : Option V)
  | bodyEnd (how : BodyEnd V)
  | awaited (index : ℕ) (isReject : Bool) (value : V)
  | adopted (index : ℕ) (outcome : Outcome V)

section

variable {V : Type}

def BodyEnd.state : BodyEnd V → GeneratorState
  | .yield _ => .suspendedYield
  | _ => .completed

def BodyEnd.outcome : BodyEnd V → Outcome V
  | .yield value => .result value false
  | .ret value => .result value true
  | .throwDone reason => .reject reason

def awaitedOutcome (isReject : Bool) (value : V) : Outcome V := if isReject then .reject value else .result value true

/-- `mal_agen_dequeue` and the settlement after it, an iterator result as far as its `then` is read -/
def Driver.settleFront (d : Driver V) (o : Outcome V) (rest : List (Frame V)) : Driver V :=
  match d.queue with
  | [] => { d with frames := rest }
  | r :: queue =>
    match o with
    | .result value done => { d with queue := queue, frames := .inSettle r value done :: rest }
    | .reject reason => { d with queue := queue, settled := d.settled ++ [(r, .reject reason)], frames := rest }

/-- the rest of `mal_promise_settle_internal`, for the iterator result of `r` -/
def Driver.settle (d : Driver V) (r : Request V) (value : V) (done : Bool) : ThenRead V → Driver V
  | .plain => { d with settled := d.settled ++ [(r, .result value done)] }
  | .callable => { d with adopting := d.adopting ++ [r] }
  | .throws error => { d with settled := d.settled ++ [(r, .reject error)] }

/-- the stack is empty, or user code is on top of it -/
def userCode : List (Frame V) → Bool
  | [] | .inSettle _ _ _ :: _ | .inResolve _ :: _ => true
  | _ => false

variable (values : Values V)

/-- One round of the loop of `mal_async_generator_resume_next`, with `mal_agen_await_return` as far as user code; where
`full`, the resume of the body is refused and leaves the flag set. -/
def Driver.drain (d : Driver V) (full : Bool) (rest : List (Frame V)) : Driver V :=
  match d.queue with
  | [] => { d with frames := rest }
  | r :: _ =>
    let state := if d.state = .suspendedStart ∧ r.mode ≠ .next then .completed else d.state
    if state = .completed then
      match r.mode with
      | .ret =>
        if values.isObject r.value then { d with state := state, frames := .inResolve r.value :: rest }
        else { d with state := state, running := true, returnAwaits := d.returnAwaits ++ [r.value], frames := rest }
      | .throw => { d with state := state }.settleFront (.reject r.value) (.drain :: rest)
      | .next => { d with state := state }.settleFront (.result values.undefined true) (.drain :: rest)
    else if full then { d with running := true, frames := rest }
    else { d with state := .executing, running := true, body := true, frames := rest }

/-- `none` where the event cannot happen -/
def Driver.step (d : Driver V) : Event V → Option (Driver V)
  | .call mode value =>
    if userCode d.frames then
      some { d with queue := d.queue ++ [⟨d.issued, mode, value⟩], issued := d.issued + 1,
                    frames := .resumeNext :: d.frames }
    else none
  | .run =>
    match d.frames with
    | .resumeNext :: rest => some { d with frames := if d.running then rest else .drain :: rest }
    | .drain :: rest => some (d.drain values false rest)
    | _ => none
  | .refused =>
    match d.frames with
    | .drain :: rest => some (d.drain values true rest)
    -- the microtask of an await in the body
    | [] => if d.body then some { d with body := false } else none
    | _ => none
  | .thenRead read =>
    match d.frames with
    | .inSettle r value done :: rest => some ({ d with frames := rest }.settle r value done read)
    | _ => none
  | .resolved thrown =>
    match d.frames, thrown with
    | .inResolve value :: rest, none =>
      some { d with running := true, returnAwaits := d.returnAwaits ++ [value], frames := rest }
    | .inResolve _ :: rest, some e => some ({ d with running := false }.settleFront (.reject e) (.resumeNext :: rest))
    | _, _ => none
  | .bodyEnd how =>
    if d.body ∧ userCode d.frames then
      some ({ d with state := how.state, running := false, body := false }.settleFront how.outcome
        (.resumeNext :: d.frames))
    else none
  | .awaited index isReject value =>
    match d.frames, d.returnAwaits[index]? with
    | [], some v =>
      if values.settlesWith v isReject value then
        some ({ d with running := false, returnAwaits := d.returnAwaits.eraseIdx index }.settleFront
          (awaitedOutcome isReject value) [.resumeNext])
      else none
    | _, _ => none
  | .adopted index outcome =>
    match d.adopting[index]? with
    | some r => some { d with adopting := d.adopting.eraseIdx index, settled := d.settled ++ [(r, outcome)] }
    | none => none

def Driver.start : Driver V := ⟨.suspendedStart, false, [], false, [], [], [], [], 0⟩

/-- Nothing disturbs the driver: user code inside it makes no call and lets no body step end, the iterator result's `then`
is no function and its read does not throw, and a resume finds a free frame. -/
def Driver.calm (d : Driver V) : Event V → Bool
  | .call _ _ | .bodyEnd _ => d.frames.isEmpty
  | .thenRead .callable | .thenRead (.throws _) | .refused => false
  | _ => true

def Driver.calmStep (d : Driver V) (e : Event V) : Option (Driver V) := if d.calm e then d.step values e else none

/-! ## What a calm step settles -/

def Frame.settling : Frame V → Option (Request V × Outcome V)
  | .inSettle r value done => some (r, .result value done)
  | _ => none

/-- the requests taken off the queue, with what each is settled with or is about to be -/
def Driver.served (d : Driver V) : List (Request V × Outcome V) := d.settled ++ d.frames.filterMap Frame.settling

/-- the outcomes that a step owes the request it takes -/
def Owed (r : Request V) : Event V → Outcome V → Prop
  | .bodyEnd how, o => o = how.outcome
  | .awaited _ isReject value, o =>
    r.mode = .ret ∧ values.settlesWith r.value isReject value = true ∧ o = awaitedOutcome isReject value
  | .resolved (some e), o => r.mode = .ret ∧ o = .reject e
  | .run, o => r.mode = .next ∧ o = .result values.undefined true ∨ r.mode = .throw ∧ o = .reject r.value
  | _, _ => False

/-- A step adds a request at the end, or takes the front one and serves it as the event says, or neither; without a body
step or an awaited value it does so on a completed generator only. -/
inductive Serves (d t : Driver V) (e : Event V) : Prop where
  | idle (served : t.served = d.served) (queue : t.queue = d.queue) (issued : t.issued = d.issued)
  | called (mode : Mode) (value : V) (served : t.served = d.served)
      (queue : t.queue = d.queue ++ [⟨d.issued, mode, value⟩]) (issued : t.issued = d.issued + 1)
  | taken (r : Request V) (o : Outcome V) (front : d.queue = r :: t.queue) (owed : Owed values r e o)
      (served : t.served = d.served ++ [(r, o)]) (issued : t.issued = d.issued) (completed : e = .run → t.state = .completed)

variable {d t : Driver V} {e : Event V} {o : Outcome V} {rest : List (Frame V)}

theorem Serves.settleFront (hsame : t.queue = d.queue ∧ t.settled = d.settled ∧ t.issued = d.issued)
    (hd : d.frames.filterMap Frame.settling = []) (hrest : rest.filterMap Frame.settling = [])
    (h : ∀ r queue, d.queue = r :: queue → Owed values r e o) (hdone : e = .run → t.state = .completed) :
    Serves values d (t.settleFront o rest) e := by
  obtain ⟨hqueue, hsettled, hissued⟩ := hsame
  unfold Driver.settleFront
  split
  · exact .idle (by simp [Driver.served, hd, hrest, hsettled]) hqueue hissued
  rename_i r queue hq
  have front : d.queue = r :: queue := hqueue ▸ hq
  cases o with
  | result value done =>
    exact .taken r _ front (h r queue front) (by simp [Driver.served, Frame.settling, hd, hrest, hsettled]) hissued hdone
  | reject reason => exact .taken r _ front (h r queue front) (by simp [Driver.served, hd, hrest, hsettled]) hissued hdone

def InOrder (d : Driver V) : Prop :=
  d.served.map (·.1.promise) ++ d.queue.map (·.promise) = List.range d.issued

theorem Serves.inOrder (h : Serves values d t e) (hd : InOrder d) : InOrder t := by
  unfold InOrder at hd ⊢
  cases h with
  | idle served queue issued => rw [served, queue, issued, hd]
  | called mode value served queue issued =>
    rw [served, queue, issued, List.map_append, ← List.append_assoc, hd, List.range_succ]
    rfl
  | taken r o front owed served issued completed =>
    rw [served, issued, ← hd, front]
    simp

/-! ## One at a time -/

def Driver.inFlight (d : Driver V) : ℕ := d.body.toNat + d.returnAwaits.length

def Driver.frontReturns (d : Driver V) (v : V) : Prop := ∃ r queue, d.queue = r :: queue ∧ r.mode = .ret ∧ r.value = v

/-- what one round of the loop does where a frame is free -/
inductive Drains (d : Driver V) (rest : List (Frame V)) : Driver V → Prop where
  | empty (queue : d.queue = []) : Drains d rest { d with frames := rest }
  | resolve (v : V) (front : d.frontReturns v) (state : GeneratorState) :
      Drains d rest { d with state := state, frames := .inResolve v :: rest }
  | await (v : V) (front : d.frontReturns v) (state : GeneratorState) :
      Drains d rest { d with state := state, running := true, returnAwaits := d.returnAwaits ++ [v], frames := rest }
  | settle (o : Outcome V) (owed : ∀ r queue, d.queue = r :: queue → Owed values r .run o) :
      Drains d rest ({ d with state := .completed }.settleFront o (.drain :: rest))
  | body (queue : d.queue ≠ []) :
      Drains d rest { d with state := .executing, running := true, body := true, frames := rest }

theorem drain_cases (d : Driver V) (rest : List (Frame V)) : Drains values d rest (d.drain values false rest) := by
  unfold Driver.drain
  split
  · rename_i hq
    exact .empty hq
  rename_i r queue hq
  generalize (if d.state = .suspendedStart ∧ r.mode ≠ .next then GeneratorState.completed else d.state) = state
  by_cases hc : state = .completed
  · rw [if_pos hc]
    cases hm : r.mode with
    | ret =>
      split_ifs with ho
      · exact .resolve r.value ⟨r, queue, hq, hm, rfl⟩ state
      · exact .await r.value ⟨r, queue, hq, hm, rfl⟩ state
    | throw | next => exact hc ▸ .settle _ (by simp_all [Owed])
  · rw [if_neg hc, if_neg (by decide)]
    exact .body (by simp [hq])

/-- The driver after calm steps: its frames are one call that ends it, `running` says whether something is in flight, and a
return value awaited is the front request's. -/
structure OneAtATime (d : Driver V) : Prop where
  flight : d.inFlight = d.running.toNat
  front : d.running = true → d.queue ≠ []
  returns : ∀ v ∈ d.returnAwaits, d.frontReturns v
  idle : d.frames = [] → d.running = true ∨ d.queue = []
  adopting : d.adopting = []
  frames : d.frames = [] ∨ d.frames = [.resumeNext] ∨ d.running = false ∧
    (d.frames = [.drain] ∨ (∃ v, d.frames = [.inResolve v] ∧ d.frontReturns v) ∨
      ∃ r value done f, d.frames = [.inSettle r value done, f] ∧ (f = .resumeNext ∨ f = .drain))

theorem Driver.frontReturns.ne_nil {v : V} (h : d.frontReturns v) : d.queue ≠ [] := by
  obtain ⟨r, queue, hq, -⟩ := h
  simp [hq]

theorem OneAtATime.settleFront {f : Frame V} (hrun : d.running = false) (hflight : d.inFlight = 0) (hnone : d.adopting = [])
    (hf : f = .resumeNext ∨ f = .drain) : OneAtATime (d.settleFront o [f]) := by
  have hzero : d.inFlight = d.running.toNat := by rw [hflight, hrun, toNat_false]
  have hreturns : d.returnAwaits = [] := by
    unfold Driver.inFlight at hflight
    exact List.length_eq_zero_iff.1 (by omega)
  have hcall : [f] = [.resumeNext] ∨ [f] = [.drain] := by rcases hf with rfl | rfl <;> simp
  unfold Driver.settleFront
  split
  · exact ⟨hzero, by simp [hrun], by simp [hreturns], by simp, hnone, .inr (hcall.imp id fun h => ⟨hrun, .inl h⟩)⟩
  cases o with
  | result value done =>
    exact ⟨hzero, by simp [hrun], by simp [hreturns], by simp, hnone, .inr (.inr ⟨hrun, .inr (.inr ⟨_, _, _, f, rfl, hf⟩)⟩)⟩
  | reject reason =>
    exact ⟨hzero, by simp [hrun], by simp [hreturns], by simp, hnone, .inr (hcall.imp id fun h => ⟨hrun, .inl h⟩)⟩

theorem OneAtATime.launched (hqueue : d.queue ≠ []) (hrun : d.running = true) (hflight : d.inFlight = 1)
    (hreturns : ∀ v ∈ d.returnAwaits, d.frontReturns v) (hnone : d.adopting = []) (hframes : d.frames = []) : OneAtATime d :=
  ⟨by rw [hflight, hrun, toNat_true], fun _ => hqueue, hreturns, fun _ => .inl hrun, hnone, .inl hframes⟩

/-- A return value is awaited while nothing is in flight. -/
theorem OneAtATime.awaiting {v : V} (hd : OneAtATime d) (hrun : d.running = false) (hfront : d.frontReturns v)
    (state : GeneratorState) :
    OneAtATime { d with state := state, running := true, returnAwaits := d.returnAwaits ++ [v], frames := [] } := by
  have hflight := hd.flight
  simp only [hrun, Driver.inFlight, toNat_false] at hflight
  have hnil : d.returnAwaits = [] := List.length_eq_zero_iff.1 (by omega)
  refine .launched hfront.ne_nil rfl ?_ ?_ hd.adopting rfl
  · simp only [Driver.inFlight, List.length_append, List.length_singleton]
    omega
  · simp only [hnil, List.nil_append, List.mem_singleton, forall_eq]
    exact hfront

variable {values}

/-- one round of the loop, with nothing in flight -/
theorem Drains.serves (h : Drains values d [] t) (hd : OneAtATime d) (hrun : d.running = false)
    (hidle : d.frames.filterMap Frame.settling = []) : OneAtATime t ∧ Serves values d t .run := by
  have hflight := hd.flight
  rw [hrun] at hflight
  cases h with
  | empty queue =>
    exact ⟨⟨hd.flight, hd.front, hd.returns, fun _ => .inr queue, hd.adopting, .inl rfl⟩,
      .idle (by simp [Driver.served, hidle]) rfl rfl⟩
  | resolve v front state =>
    exact ⟨⟨hd.flight, hd.front, hd.returns, by simp, hd.adopting, .inr (.inr ⟨hrun, .inr (.inl ⟨v, rfl, front⟩)⟩)⟩,
      .idle (by simp [Driver.served, hidle, Frame.settling]) rfl rfl⟩
  | await v front state => exact ⟨hd.awaiting hrun front state, .idle (by simp [Driver.served, hidle]) rfl rfl⟩
  | settle o owed =>
    exact ⟨.settleFront hrun hflight hd.adopting (.inr rfl),
      .settleFront values ⟨rfl, rfl, rfl⟩ hidle rfl owed (fun _ => rfl)⟩
  | body queue =>
    refine ⟨.launched queue rfl ?_ hd.returns hd.adopting rfl, .idle (by simp [Driver.served, hidle]) rfl rfl⟩
    simp only [Driver.inFlight, toNat_true, toNat_false] at hflight ⊢
    omega

/-- **One calm step** keeps one thing in flight at most, the front request's, and serves that request only. -/
theorem calmStep_serves (hd : OneAtATime d) (h : d.calmStep values e = some t) : OneAtATime t ∧ Serves values d t e := by
  have hflight := hd.flight
  have hle := toNat_le d.running
  simp only [Driver.calmStep, ite_none_right_eq_some] at h
  obtain ⟨hcalm, h⟩ := h
  cases e with
  | call mode value =>
    simp only [Driver.step, ite_none_right_eq_some, some.injEq] at h
    obtain ⟨-, rfl⟩ := h
    have hframes : d.frames = [] := List.isEmpty_iff.1 hcalm
    refine ⟨⟨hflight, by simp, fun v hv => ?_, by simp, hd.adopting, .inr (.inl (by rw [hframes]))⟩, .called mode value ?_ rfl rfl⟩
    · obtain ⟨r, queue, hq, hm⟩ := hd.returns v hv
      exact ⟨r, queue ++ [⟨d.issued, mode, value⟩], by simp [hq], hm⟩
    · simp [Driver.served, hframes, Frame.settling]
  | run =>
    simp only [Driver.step] at h
    rcases hd.frames with hf | hf | ⟨hrun, hf | ⟨v, hf, -⟩ | ⟨r, value, done, f, hf, -⟩⟩ <;>
      simp only [hf, some.injEq, reduceCtorEq] at h
    · subst h
      cases hrun : d.running with
      | true =>
        exact ⟨⟨hrun ▸ hflight, fun _ => hd.front hrun, hd.returns, fun _ => .inl rfl, hd.adopting, .inl rfl⟩,
          .idle (by simp [Driver.served, hf, Frame.settling]) rfl rfl⟩
      | false =>
        exact ⟨⟨hrun ▸ hflight, by simp, hd.returns, by simp, hd.adopting, .inr (.inr ⟨rfl, .inl rfl⟩)⟩,
          .idle (by simp [Driver.served, hf, Frame.settling, List.filterMap_cons]) rfl rfl⟩
    · have hidle : d.frames.filterMap Frame.settling = [] := by simp [hf, Frame.settling]
      exact (h ▸ drain_cases values d []).serves hd hrun hidle
  | refused => exact absurd hcalm (by simp [Driver.calm])
  | thenRead read =>
    cases read with
    | callable | throws => exact absurd hcalm (by simp [Driver.calm])
    | plain =>
      simp only [Driver.step] at h
      rcases hd.frames with hf | hf | ⟨hrun, hf | ⟨v, hf, -⟩ | ⟨r, value, done, f, hf, hcall⟩⟩ <;>
        simp only [hf, some.injEq, reduceCtorEq] at h
      have hserved : t.served = d.served := by
        rcases hcall with rfl | rfl <;> simp [← h, Driver.settle, Driver.served, hf, Frame.settling]
      subst h
      refine ⟨⟨hflight, hd.front, hd.returns, by simp [Driver.settle], hd.adopting, ?_⟩, .idle hserved rfl rfl⟩
      exact .inr (hcall.imp (by rintro rfl; rfl) (by rintro rfl; exact ⟨hrun, .inl rfl⟩))
  | resolved thrown =>
    simp only [Driver.step] at h
    rcases hd.frames with hf | hf | ⟨hrun, hf | ⟨v, hf, hfront⟩ | ⟨r, value, done, f, hf, -⟩⟩ <;>
      simp only [hf, reduceCtorEq] at h
    have hidle : d.frames.filterMap Frame.settling = [] := by simp [hf, Frame.settling]
    cases thrown with
    | none =>
      exact some.inj h ▸ ⟨hd.awaiting hrun hfront d.state, .idle (by simp [Driver.served, hidle]) rfl rfl⟩
    | some reason =>
      rw [hrun] at hflight
      refine some.inj h ▸ ⟨.settleFront rfl hflight hd.adopting (.inl rfl),
        .settleFront values ⟨rfl, rfl, rfl⟩ hidle rfl (fun r queue hq => ?_) (by simp)⟩
      obtain ⟨r', queue', hq', hm, -⟩ := hfront
      exact ⟨(List.cons.inj (hq.symm.trans hq')).1 ▸ hm, rfl⟩
  | bodyEnd how =>
    simp only [Driver.step, ite_none_right_eq_some, some.injEq] at h
    obtain ⟨⟨hbody, -⟩, rfl⟩ := h
    have hframes : d.frames = [] := List.isEmpty_iff.1 hcalm
    rw [hframes]
    refine ⟨.settleFront rfl ?_ hd.adopting (.inl rfl),
      .settleFront values ⟨rfl, rfl, rfl⟩ (by simp [hframes]) rfl (fun _ _ _ => rfl) (by simp)⟩
    simp only [Driver.inFlight, hbody, toNat_true, toNat_false] at hflight ⊢
    omega
  | awaited index isReject value =>
    simp only [Driver.step] at h
    split at h <;> simp only [ite_none_right_eq_some, some.injEq, reduceCtorEq] at h
    rename_i v hf hv
    obtain ⟨hsettles, rfl⟩ := h
    have hlt := (List.getElem?_eq_some_iff.1 hv).1
    refine ⟨.settleFront rfl ?_ hd.adopting (.inl rfl),
      .settleFront values ⟨rfl, rfl, rfl⟩ (by simp [hf]) rfl (fun r queue hq => ?_) (by simp)⟩
    · simp only [Driver.inFlight, List.length_eraseIdx, if_pos hlt] at hflight ⊢
      omega
    · obtain ⟨r', queue', hq', hm, rfl⟩ := hd.returns v (List.mem_of_getElem? hv)
      obtain ⟨rfl, -⟩ := List.cons.inj (hq.symm.trans hq')
      exact ⟨hm, hsettles, rfl⟩
  | adopted index outcome => simp [Driver.step, hd.adopting] at h

theorem calmRun_invariant (events : List (Event V)) (hd : InOrder d ∧ OneAtATime d)
    (h : events.foldlM (Driver.calmStep values) d = some t) : InOrder t ∧ OneAtATime t := by
  induction events generalizing d with
  | nil => exact some.inj h ▸ hd
  | cons e rest ih =>
    obtain ⟨d', hd', hrest⟩ := bind_eq_some_iff.1 h
    obtain ⟨hone, hserves⟩ := calmStep_serves hd.2 hd'
    exact ih ⟨hserves.inOrder _ hd.1, hone⟩ hrest

end

/-- numbers as values, 1 the one object, whose promise is fulfilled with itself -/
def sampleValues : Values ℕ where
  undefined := 0
  isObject v := v == 1
  settlesWith v isReject w := !isReject && w == v
  primitive v isReject w _ h := by simpa using h

/-- `next` on a fresh generator, whose body calls `next` and `return(7)` and yields 5; resumed, it returns 6, and the
return waits for 7. -/
def queuedCalls : List (Event ℕ) :=
  [.call .next 0, .run, .run, .call .next 0, .run, .call .ret 7, .run, .bodyEnd (.yield 5), .thenRead .plain, .run, .run,
    .bodyEnd (.ret 6), .thenRead .plain, .run, .run, .awaited 0 false 7, .thenRead .plain, .run, .run]

end Maligator.AsyncGenerator
