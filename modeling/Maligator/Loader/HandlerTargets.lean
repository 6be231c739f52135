/-
`vmExceptionHandlerTargets` (`runtime-image.ts`): the handler of every instruction, by one sweep over the code.

The compiler sorts the handlers by their start, the wider first, and keeps those whose range is open on a stack; the
interpreter searches the table at each throw (`innermost`). Over ranges that are nested or disjoint the sweep meets no
crossing, and at an instruction the stack holds the open ranges and those that start there, in the order of the sort
(`sweep_eq`).

An empty range reaches the top of the stack although it covers nothing, and of equal ranges the last of the table is on
top (`top_eq`), where the search takes the first (`innermost_eq`). `vmExceptionHandlerTargets_iff` says which tables this
does not harm, and `vmExceptionHandlerTargets_differs` has one of each kind that it does.
-/
import Maligator.Loader.CompactSim
import Mathlib.Data.List.Sort

namespace Maligator.Loader

open List Except

/-! ## The sweep -/

/-- the order of `ordered`; the sort is stable -/
def sweepsBefore (left right : Handler) : Bool :=
  left.startIp < right.startIp || left.startIp == right.startIp && right.endIp ≤ left.endIp

/-- the second loop at ip: the handlers that start there go on the stack -/
def pushStarted (ip : ℕ) : List Handler → List Handler → Except String (List Handler × List Handler)
  | active, [] => .ok (active, [])
  | active, handler :: rest =>
    if handler.startIp ≤ ip then
      if active.head?.any fun parent => handler.endIp > parent.endIp then .error "Crossing exception-handler ranges"
      else pushStarted ip (handler :: active) rest
    else .ok (active, handler :: rest)

/-- the loop over the instructions from ip on, with the stack and the handlers that have not started -/
def sweep : ℕ → ℕ → List Handler → List Handler → Except String (List (Option ℕ))
  | 0, _, _, _ => .ok []
  | count + 1, ip, active, rest =>
    (pushStarted ip (active.dropWhile fun handler => handler.endIp ≤ ip) rest).bind fun (active, rest) =>
      (sweep count (ip + 1) active rest).map fun targets => active.head?.map Handler.handlerIp :: targets

def vmExceptionHandlerTargets (instructionCount : ℕ) (handlers : List Handler) : Except String (List (Option ℕ)) :=
  sweep instructionCount 0 [] (handlers.mergeSort sweepsBefore)

/-! ## Tables -/

/-- ranges are pairwise disjoint or nested; they may be empty, and equal -/
structure Laminar (handlers : List Handler) : Prop where
  bounded : ∀ a ∈ handlers, a.startIp ≤ a.endIp
  nested : ∀ a ∈ handlers, ∀ b ∈ handlers, (a.endIp ≤ b.startIp ∨ b.endIp ≤ a.startIp) ∨
    (a.startIp ≤ b.startIp ∧ b.endIp ≤ a.endIp) ∨ (b.startIp ≤ a.startIp ∧ a.endIp ≤ b.endIp)

def emptyAt (handlers : List Handler) (ip : ℕ) : List Handler :=
  handlers.filter fun a => a.startIp == ip && a.endIp == ip

def smallestAt (handlers : List Handler) (ip : ℕ) : List Handler :=
  handlers.filter fun a => a.covers ip && decide (∀ b ∈ handlers, b.covers ip = true → a.size ≤ b.size)

/-- where no empty range starts, the first and the last of the smallest ranges around ip have one target; where some do, the
last of these has the target of the first smallest range around -/
structure AgreesAt (handlers : List Handler) (ip : ℕ) : Prop where
  equal : emptyAt handlers ip = [] → ∀ first ∈ (smallestAt handlers ip).head?,
    ∀ last ∈ (smallestAt handlers ip).getLast?, last.handlerIp = first.handlerIp
  empty : ∀ last ∈ (emptyAt handlers ip).getLast?, ∃ first ∈ (smallestAt handlers ip).head?,
    last.handlerIp = first.handlerIp

section Lists

variable {α : Type} {l : List α} {p q : α → Bool}

/-- a list in which what has p comes before what has q -/
theorem filter_append_filter (hdisjoint : ∀ a, p a = true → q a = false)
    (hsorted : l.Pairwise fun a b => q a = true → p b = false) :
    l.filter p ++ l.filter q = l.filter fun a => p a || q a := by
  induction l with
  | nil => rfl
  | cons a l ih =>
    obtain ⟨hafter, hsorted⟩ := pairwise_cons.1 hsorted
    have ih := ih hsorted
    cases hp : p a with
    | true => simp [hp, hdisjoint a hp, ih]
    | false =>
      cases hq : q a with
      | true =>
        have hnone : l.filter p = [] := filter_eq_nil_iff.2 fun b hb => by simp [hafter b hb hq]
        rw [hnone, nil_append] at ih
        simp [hp, hq, hnone, ih]
      | false => simp [hp, hq, ih]

theorem dropWhile_eq_filter (hsorted : l.Pairwise fun a b => p b = true → p a = true) :
    l.dropWhile p = l.filter fun a => !p a := by
  induction l with
  | nil => rfl
  | cons a l ih =>
    obtain ⟨hafter, hsorted⟩ := pairwise_cons.1 hsorted
    cases hp : p a with
    | true => simp [hp, ih hsorted]
    | false =>
      have hall : l.filter (fun b => !p b) = l := filter_eq_self.2 fun b hb => by
        simpa [hp] using mt (hafter b hb)
      simp [hp, hall]

theorem getLast?_filter_of_last {z : α} (h : l.getLast? = some z) (hz : p z = true) :
    (l.filter p).getLast? = some z := by
  obtain ⟨init, rfl⟩ := getLast?_eq_some_iff.1 h
  simp [hz]

end Lists

variable {ip : ℕ} {handlers active : List Handler} {a b z : Handler} {p q : Handler → Bool}

theorem covers_iff : a.covers ip = true ↔ a.startIp ≤ ip ∧ ip < a.endIp := by
  simp [Handler.covers]

theorem sweepsBefore_iff :
    sweepsBefore a b = true ↔ a.startIp < b.startIp ∨ a.startIp = b.startIp ∧ b.endIp ≤ a.endIp := by
  simp [sweepsBefore]

theorem sweepsBefore_trans (a b c : Handler) (hab : sweepsBefore a b = true) (hbc : sweepsBefore b c = true) :
    sweepsBefore a c = true := by
  rw [sweepsBefore_iff] at *
  omega

theorem sweepsBefore_total (a b : Handler) : (sweepsBefore a b || sweepsBefore b a) = true := by
  rw [Bool.or_eq_true, sweepsBefore_iff, sweepsBefore_iff]
  omega

theorem sorted_handlers (handlers : List Handler) :
    (handlers.mergeSort sweepsBefore).Pairwise fun a b => sweepsBefore a b = true :=
  pairwise_mergeSort sweepsBefore_trans sweepsBefore_total handlers

theorem Laminar.within (h : Laminar handlers) (ha : a ∈ handlers) (hb : b ∈ handlers) (hca : a.covers ip = true)
    (hcb : b.covers ip = true) :
    (a.startIp ≤ b.startIp ∧ b.endIp ≤ a.endIp) ∨ (b.startIp ≤ a.startIp ∧ a.endIp ≤ b.endIp) := by
  have := h.nested a ha b hb
  rw [covers_iff] at hca hcb
  omega

/-! ## The stack -/

/-- the ranges on the stack at ip: those that are open, and those that start there -/
def onStack (ip : ℕ) (a : Handler) : Bool := a.startIp ≤ ip && (ip < a.endIp || a.startIp == ip)

theorem onStack_iff : onStack ip a = true ↔ a.startIp ≤ ip ∧ (ip < a.endIp ∨ a.startIp = ip) := by
  simp [onStack]

/-- on the stack each range is within those below it -/
theorem Laminar.inside (h : Laminar handlers) (ha : a ∈ handlers) (hb : b ∈ handlers) (hbefore : sweepsBefore a b = true)
    (hsa : onStack ip a = true) (hsb : onStack ip b = true) : a.startIp ≤ b.startIp ∧ b.endIp ≤ a.endIp := by
  rw [sweepsBefore_iff] at hbefore
  rw [onStack_iff] at hsa hsb
  have hba := h.bounded a ha
  have hbb := h.bounded b hb
  by_cases hopen : ip < a.endIp ∧ ip < b.endIp
  · have := h.within ha hb (covers_iff.2 ⟨hsa.1, hopen.1⟩) (covers_iff.2 ⟨hsb.1, hopen.2⟩)
    omega
  · omega

theorem Laminar.stack_inside (h : Laminar handlers) (ip : ℕ) :
    ((handlers.mergeSort sweepsBefore).filter (onStack ip)).Pairwise fun a b =>
      a.startIp ≤ b.startIp ∧ b.endIp ≤ a.endIp := by
  refine ((sorted_handlers handlers).filter (onStack ip)).imp_of_mem fun {a b} ha hb hbefore => ?_
  obtain ⟨hma, hsa⟩ := mem_filter.1 ha
  obtain ⟨hmb, hsb⟩ := mem_filter.1 hb
  exact h.inside (mem_mergeSort.1 hma) (mem_mergeSort.1 hmb) hbefore hsa hsb

theorem pushStarted_eq (active : List Handler) {started later : List Handler} (hstarted : ∀ a ∈ started, a.startIp ≤ ip)
    (hlater : ∀ a ∈ later, ip < a.startIp)
    (hinside : (active.reverse ++ started).Pairwise fun a b => b.endIp ≤ a.endIp) :
    pushStarted ip active (started ++ later) = .ok ((active.reverse ++ started).reverse, later) := by
  induction started generalizing active with
  | nil =>
    cases later with
    | nil => simp [pushStarted]
    | cons b later => simp [pushStarted, hlater b mem_cons_self]
  | cons b started ih =>
    have hparent : ¬ active.head?.any (fun parent => b.endIp > parent.endIp) = true := by
      cases active with
      | nil => simp
      | cons a active => simpa using (pairwise_append.1 hinside).2.2 a (by simp) b mem_cons_self
    rw [cons_append, pushStarted, if_pos (hstarted b mem_cons_self), if_neg hparent]
    have ih := ih (b :: active) (fun a ha => hstarted a (mem_cons_of_mem b ha)) (by simpa using hinside)
    simpa using ih

/-- the loop, from ip on, leaves at each instruction the last of the ranges on the stack -/
theorem sweep_eq (h : Laminar handlers) (count : ℕ)
    (hactive : (active.dropWhile fun a => a.endIp ≤ ip) =
      ((handlers.mergeSort sweepsBefore).filter fun a => a.startIp < ip && ip < a.endIp).reverse) :
    sweep count ip active ((handlers.mergeSort sweepsBefore).filter fun a => ip ≤ a.startIp) =
      .ok ((range' ip count).map fun ip =>
        ((handlers.mergeSort sweepsBefore).filter (onStack ip)).getLast?.map Handler.handlerIp) := by
  have hsorted := sorted_handlers handlers
  have hinside := h.stack_inside
  generalize handlers.mergeSort sweepsBefore = ordered at *
  induction count generalizing ip active with
  | zero => rfl
  | succ count ih =>
    have hrest : (ordered.filter fun a => ip ≤ a.startIp) =
        (ordered.filter fun a => a.startIp == ip) ++ ordered.filter fun a => ip + 1 ≤ a.startIp := by
      rw [filter_append_filter (by grind) (hsorted.imp fun {a b} hab => by grind [sweepsBefore_iff])]
      exact filter_congr fun a _ => by grind
    have hstack : (ordered.filter fun a => a.startIp < ip && ip < a.endIp) ++
        (ordered.filter fun a => a.startIp == ip) = ordered.filter (onStack ip) := by
      rw [filter_append_filter (by grind) (hsorted.imp fun {a b} hab => by grind [sweepsBefore_iff])]
      exact filter_congr fun a _ => by grind [onStack]
    have hpush : pushStarted ip (active.dropWhile fun a => a.endIp ≤ ip) (ordered.filter fun a => ip ≤ a.startIp) =
        .ok ((ordered.filter (onStack ip)).reverse, ordered.filter fun a => ip + 1 ≤ a.startIp) := by
      rw [hrest, pushStarted_eq _ (by grind) (by grind)]
      · rw [hactive, reverse_reverse, hstack]
      · rw [hactive, reverse_reverse, hstack]
        exact (hinside ip).imp And.right
    have hnext : ((ordered.filter (onStack ip)).reverse.dropWhile fun a => a.endIp ≤ ip + 1) =
        (ordered.filter fun a => a.startIp < ip + 1 && ip + 1 < a.endIp).reverse := by
      rw [dropWhile_eq_filter (pairwise_reverse.2 ((hinside ip).imp fun {a b} hab => by grind)), filter_reverse,
        filter_filter]
      congr 1
      exact filter_congr fun a _ => by grind [onStack]
    rw [sweep, hpush]
    dsimp only [Except.bind]
    rw [ih hnext, head?_reverse]
    rfl

/-! ## The top of the stack, and the search -/

/-- the sort leaves handlers of one range in the order of the table -/
theorem filter_sorted (h : ∀ a ∈ handlers, ∀ b ∈ handlers, p a = true → p b = true → sweepsBefore a b = true) :
    (handlers.mergeSort sweepsBefore).filter p = handlers.filter p := by
  have hsub : handlers.filter p <+ handlers.mergeSort sweepsBefore := by
    refine sublist_mergeSort sweepsBefore_trans sweepsBefore_total (pairwise_of_forall_mem_list fun a ha b hb => ?_)
      filter_sublist
    exact h a (mem_filter.1 ha).1 b (mem_filter.1 hb).1 (mem_filter.1 ha).2 (mem_filter.1 hb).2
  have hsub : handlers.filter p <+ (handlers.mergeSort sweepsBefore).filter p := by
    simpa [filter_filter] using hsub.filter p
  exact (hsub.eq_of_length ((mergeSort_perm handlers sweepsBefore).filter p).length_eq.symm).symm

theorem getLast?_table (hlast : ((handlers.mergeSort sweepsBefore).filter q).getLast? = some z)
    (hpq : ∀ a ∈ handlers, p a = true → q a = true)
    (h : ∀ a ∈ handlers, ∀ b ∈ handlers, p a = true → p b = true → sweepsBefore a b = true) (hz : p z = true) :
    (handlers.filter p).getLast? = some z := by
  have hp := getLast?_filter_of_last hlast hz
  have hboth : ((handlers.mergeSort sweepsBefore).filter fun a => p a && q a) =
      (handlers.mergeSort sweepsBefore).filter p :=
    filter_congr fun a ha => by cases hpa : p a <;> simp [hpa, hpq a (mem_mergeSort.1 ha)]
  rwa [filter_filter, hboth, filter_sorted h] at hp

theorem mem_emptyAt : a ∈ emptyAt handlers ip ↔ a ∈ handlers ∧ a.startIp = ip ∧ a.endIp = ip := by
  simp [emptyAt]

theorem mem_smallestAt : a ∈ smallestAt handlers ip ↔
    a ∈ handlers ∧ a.covers ip = true ∧ ∀ b ∈ handlers, b.covers ip = true → a.size ≤ b.size := by
  simp [smallestAt]

theorem Laminar.sweepsBefore_smallest (h : Laminar handlers) (ha : a ∈ smallestAt handlers ip)
    (hb : b ∈ smallestAt handlers ip) : sweepsBefore a b = true := by
  obtain ⟨hma, hca, hleast⟩ := mem_smallestAt.1 ha
  obtain ⟨hmb, hcb, hleast'⟩ := mem_smallestAt.1 hb
  have hle := hleast b hmb hcb
  have hle' := hleast' a hma hca
  have hwithin := h.within hma hmb hca hcb
  rw [covers_iff] at hca hcb
  rw [Handler.size, Handler.size] at hle hle'
  rw [sweepsBefore_iff]
  omega

theorem onStack_of_emptyAt (h : a ∈ emptyAt handlers ip) : onStack ip a = true :=
  have hstart := (mem_emptyAt.1 h).2.1
  onStack_iff.2 ⟨hstart.le, .inr hstart⟩

theorem onStack_of_covers (h : a.covers ip = true) : onStack ip a = true :=
  onStack_iff.2 ⟨(covers_iff.1 h).1, .inl (covers_iff.1 h).2⟩

section Last

variable (hlast : ((handlers.mergeSort sweepsBefore).filter (onStack ip)).getLast? = some z)
include hlast

/-- the top of the stack is within all that is on it -/
theorem Laminar.inside_last (h : Laminar handlers) (ha : a ∈ handlers)
    (hsa : onStack ip a = true) : a.startIp ≤ z.startIp ∧ z.endIp ≤ a.endIp := by
  obtain ⟨below, hstack⟩ := getLast?_eq_some_iff.1 hlast
  have hina : a ∈ (handlers.mergeSort sweepsBefore).filter (onStack ip) := mem_filter.2 ⟨mem_mergeSort.2 ha, hsa⟩
  have hpairs := h.stack_inside ip
  rw [hstack] at hina hpairs
  rcases mem_append.1 hina with hina | hina
  · exact (pairwise_append.1 hpairs).2.2 a hina z mem_cons_self
  · rw [mem_singleton.1 hina]
    exact ⟨le_rfl, le_rfl⟩

theorem last_empty (hz : z ∈ emptyAt handlers ip) : (emptyAt handlers ip).getLast? = some z := by
  refine getLast?_table hlast (fun a ha hp => onStack_of_emptyAt (mem_filter.2 ⟨ha, hp⟩)) (fun a _ b _ hpa hpb => ?_)
    (mem_filter.1 hz).2
  rw [sweepsBefore_iff]
  simp only [Bool.and_eq_true, beq_iff_eq] at hpa hpb
  omega

theorem Laminar.last_smallest (h : Laminar handlers) (hmem : z ∈ handlers) (hcovers : z.covers ip = true) :
    (smallestAt handlers ip).getLast? = some z := by
  have hz : z ∈ smallestAt handlers ip := by
    refine mem_smallestAt.2 ⟨hmem, hcovers, fun b hb hcb => ?_⟩
    have := h.inside_last hlast hb (onStack_of_covers hcb)
    rw [Handler.size, Handler.size]
    omega
  refine getLast?_table hlast (fun a ha hp => ?_) (fun a ha b hb hpa hpb => ?_) (mem_filter.1 hz).2
  · exact onStack_of_covers (mem_smallestAt.1 (mem_filter.2 ⟨ha, hp⟩)).2.1
  · exact h.sweepsBefore_smallest (mem_filter.2 ⟨ha, hpa⟩) (mem_filter.2 ⟨hb, hpb⟩)

end Last

/-- on top is the last empty range, or else the last of the smallest ranges around -/
theorem top_eq (h : Laminar handlers) (ip : ℕ) :
    ((handlers.mergeSort sweepsBefore).filter (onStack ip)).getLast? =
      (emptyAt handlers ip).getLast?.or (smallestAt handlers ip).getLast? := by
  cases hlast : ((handlers.mergeSort sweepsBefore).filter (onStack ip)).getLast? with
  | none =>
    have hno : ∀ a ∈ handlers, ¬ onStack ip a = true := fun a ha =>
      filter_eq_nil_iff.1 (getLast?_eq_none_iff.1 hlast) a (mem_mergeSort.2 ha)
    have hempty : emptyAt handlers ip = [] := eq_nil_iff_forall_not_mem.2 fun a ha =>
      hno a (mem_emptyAt.1 ha).1 (onStack_of_emptyAt ha)
    have hsmallest : smallestAt handlers ip = [] := eq_nil_iff_forall_not_mem.2 fun a ha =>
      hno a (mem_smallestAt.1 ha).1 (onStack_of_covers (mem_smallestAt.1 ha).2.1)
    rw [hempty, hsmallest]
    rfl
  | some z =>
    obtain ⟨hmem, hz⟩ := mem_filter.1 (mem_of_getLast? hlast)
    have hmem := mem_mergeSort.1 hmem
    have hz := onStack_iff.1 hz
    have hbounded := h.bounded z hmem
    by_cases hend : z.endIp = ip
    · rw [last_empty hlast (mem_emptyAt.2 ⟨hmem, by omega, hend⟩), Option.some_or]
    · have hcovers : z.covers ip = true := covers_iff.2 (by omega)
      -- z would be within an empty range, but z is open
      have hempty : emptyAt handlers ip = [] := eq_nil_iff_forall_not_mem.2 fun a ha => by
        have := h.inside_last hlast (mem_emptyAt.1 ha).1 (onStack_of_emptyAt ha)
        have := (mem_emptyAt.1 ha).2
        omega
      rw [hempty, getLast?_nil, Option.none_or, h.last_smallest hlast hmem hcovers]

theorem innermost_eq {Op : Type} (fn : MalFunction Op) (ip : ℕ) :
    (innermost fn ip).map Prod.snd = (smallestAt fn.handlers ip).head? := by
  cases hfound : innermost fn ip with
  | none =>
    have hno : smallestAt fn.handlers ip = [] := eq_nil_iff_forall_not_mem.2 fun a ha => by
      obtain ⟨hmem, hcovers, -⟩ := mem_smallestAt.1 ha
      obtain ⟨i, hi⟩ := mem_iff_getElem?.1 hmem
      obtain ⟨chosen, hchosen⟩ := exists_innermost (show Around fn ip (i, a) from ⟨hi, hcovers⟩)
      rw [hfound] at hchosen
      cases hchosen
    rw [hno]
    rfl
  | some entry =>
    obtain ⟨⟨hat, hcovers⟩, hfirst⟩ := innermost_iff.1 hfound
    obtain ⟨hlt, hget⟩ := List.getElem?_eq_some_iff.1 hat
    rw [smallestAt, head?_filter, Option.map_some, eq_comm, find?_eq_some_iff_getElem]
    have hleast : ∀ b ∈ fn.handlers, b.covers ip = true → entry.2.size ≤ b.size := by
      intro b hb hcb
      obtain ⟨j, hj⟩ := mem_iff_getElem?.1 hb
      have hbefore : entry.2.size < b.size ∨ entry.2.size = b.size ∧ entry.1 ≤ j := hfirst (j, b) ⟨hj, hcb⟩
      omega
    refine ⟨by simpa [hcovers] using hleast, entry.1, hlt, hget, fun j hj => ?_⟩
    -- a smallest range before the one found would have been found
    have hjlt := hj.trans hlt
    by_contra hp
    simp only [Bool.not_eq_true', Bool.not_eq_false, Bool.and_eq_true, decide_eq_true_eq] at hp
    have hle := hp.2 entry.2 (mem_of_getElem? hat) hcovers
    have hbefore : entry.2.size < fn.handlers[j].size ∨ entry.2.size = fn.handlers[j].size ∧ entry.1 ≤ j :=
      hfirst (j, fn.handlers[j]) ⟨getElem?_eq_getElem hjlt, hp.1⟩
    omega

/-! ## The targets -/

theorem agreesAt_iff : AgreesAt handlers ip ↔
    ((emptyAt handlers ip).getLast?.or (smallestAt handlers ip).getLast?).map Handler.handlerIp =
      (smallestAt handlers ip).head?.map Handler.handlerIp := by
  have hfields : AgreesAt handlers ip ↔ _ ∧ _ := ⟨fun h => ⟨h.equal, h.empty⟩, fun h => ⟨h.1, h.2⟩⟩
  rw [hfields]
  generalize emptyAt handlers ip = empty, smallestAt handlers ip = smallest
  rcases eq_nil_or_concat' empty with rfl | ⟨before, last, rfl⟩
  · cases smallest <;> simp [getLast?_cons]
  · cases smallest <;> simp

/-- **The targets are the interpreter's.** Over nested or disjoint ranges the sweep ends without an error, and it gives
each instruction the handler that a throw there reaches exactly when equal and empty ranges agree in their targets. -/
theorem vmExceptionHandlerTargets_iff {Op : Type} (fn : MalFunction Op) (instructionCount : ℕ)
    (hlaminar : Laminar fn.handlers) :
    ∃ targets, vmExceptionHandlerTargets instructionCount fn.handlers = .ok targets ∧
      (targets = (range instructionCount).map (fun ip => (innermost fn ip).map fun found => found.2.handlerIp) ↔
        ∀ ip < instructionCount, AgreesAt fn.handlers ip) := by
  have hsweep : vmExceptionHandlerTargets instructionCount fn.handlers = .ok ((range instructionCount).map fun ip =>
      ((fn.handlers.mergeSort sweepsBefore).filter (onStack ip)).getLast?.map Handler.handlerIp) := by
    have hfrom : sweep instructionCount 0 [] _ = _ := sweep_eq hlaminar instructionCount (by simp)
    simpa [vmExceptionHandlerTargets, range_eq_range'] using hfrom
  refine ⟨_, hsweep, ?_⟩
  rw [map_inj_left]
  simp only [mem_range, top_eq hlaminar, agreesAt_iff, ← innermost_eq, Option.map_map]
  rfl

/-- a function without code, for its handlers -/
def handling (handlers : List Handler) : MalFunction Unit := ⟨[], handlers, [], [], 0⟩

/-- two handlers of one range, inside another range that an empty one starts with -/
def nestedTable : List Handler := [⟨1, 2, 7⟩, ⟨1, 2, 7⟩, ⟨0, 0, 8⟩, ⟨0, 3, 8⟩]

theorem vmExceptionHandlerTargets_nested :
    Laminar nestedTable ∧ vmExceptionHandlerTargets 4 nestedTable = .ok [some 8, some 7, some 8, none] := by
  have hlaminar : Laminar nestedTable := ⟨by decide, by decide⟩
  obtain ⟨targets, hok, hiff⟩ := vmExceptionHandlerTargets_iff (handling nestedTable) 4 hlaminar
  have hagree : ∀ ip < 4, AgreesAt nestedTable ip := by
    intro ip hip
    rw [agreesAt_iff]
    revert ip
    decide
  rw [hiff.2 hagree] at hok
  exact ⟨hlaminar, hok⟩

/-- two handlers of one range, and a handler of an empty one -/
theorem vmExceptionHandlerTargets_differs :
    (Laminar [⟨0, 1, 7⟩, ⟨0, 1, 8⟩] ∧ vmExceptionHandlerTargets 1 [⟨0, 1, 7⟩, ⟨0, 1, 8⟩] = .ok [some 8] ∧
      (innermost (handling [⟨0, 1, 7⟩, ⟨0, 1, 8⟩]) 0).map (fun found => found.2.handlerIp) = some 7) ∧
      Laminar [⟨0, 0, 7⟩] ∧ vmExceptionHandlerTargets 1 [⟨0, 0, 7⟩] = .ok [some 7] ∧
        innermost (handling [⟨0, 0, 7⟩]) 0 = none := by
  refine ⟨⟨⟨by decide, by decide⟩, ?_, rfl⟩, ⟨by decide, by decide⟩, ?_, rfl⟩
  · rw [vmExceptionHandlerTargets, mergeSort_of_pairwise (by simp [sweepsBefore])]
    rfl
  · rw [vmExceptionHandlerTargets, mergeSort_singleton]
    rfl

end Maligator.Loader
