/-
Argument snapshots: `buildArgumentSnapshotPlan` (`runtime-image.ts`) and `mal_vm_execute_argument_snapshot_plan` (`vm.c`).

A function may start with LOAD_ARGUMENT_COUNT and LOAD_ARGUMENT instructions into the registers right behind its
parameters. The compiler turns this prefix into a plan of moves that frame setup runs at once: the registers may lie over
the arguments themselves, so a move must not overwrite an argument that a later one reads, and a cycle goes through one
scratch value.

`Sched` is the state of the builder with the moves it has emitted; `Step` says once what a round can do.
`schedule_steps`: the loops never throw and are a run of such steps that leaves nothing to do.
-/
import Maligator.Value

namespace Maligator.Frame

open List Option Function

/-! ## The instructions of a prefix -/

/-- the opcodes that matter here; every other instruction is `other` -/
inductive Instruction where
  | loadArgumentCount (dst : ℤ)
  | loadArgument (dst index : ℤ)
  | other
  deriving DecidableEq

/-- the fields of BytecodeFunction that a plan depends on; register numbers are i32 -/
structure BytecodeFunction where
  argumentSnapshotCount : ℤ
  instructions : List Instruction
  parameterCount : ℕ
  registerCount : ℕ
  registers_fit : registerCount < 2 ^ 31

/-- VmArgumentSnapshotMove: a negative destination saves to scratch, a negative source is one of the two below -/
structure Move where
  destination : ℤ
  source : ℤ
  deriving DecidableEq

def sourceCount : ℤ := -1

def sourceScratch : ℤ := -2

/-- an entry of `snapshots`; no source stands for the argument count -/
structure Snapshot where
  destination : ℕ
  source : Option ℕ
  deriving DecidableEq

/-- what the builder throws -/
inductive PlanError where
  | invalidCount
  | destinationsExceedRegisters
  | prefixMismatch
  | destinationsNotDense
  | invalidSourceIndex
  | negativeIndex
  | unableToSchedule
  | unableToResolveCycle
  deriving DecidableEq

/-! ## The builder -/

def snapshotOf (fn : BytecodeFunction) (i : ℕ) (instruction : Option Instruction) : Except PlanError Snapshot :=
  match instruction with
  | some (.loadArgumentCount dst) =>
    if dst ≠ fn.parameterCount + i then .error .destinationsNotDense else .ok ⟨fn.parameterCount + i, none⟩
  | some (.loadArgument dst index) =>
    if dst ≠ fn.parameterCount + i then .error .destinationsNotDense
    else if index > 0x7fffffff then .error .invalidSourceIndex
    else if index < 0 then .error .negativeIndex
    else .ok ⟨fn.parameterCount + i, some index.toNat⟩
  | _ => .error .prefixMismatch

def isArgumentLoad : Option Instruction → Bool
  | some (.loadArgumentCount _) => true
  | some (.loadArgument _ _) => true
  | _ => false

/-- the snapshots from entry i on, with `n` of them to come -/
def collectSnapshots (fn : BytecodeFunction) : ℕ → ℕ → Except PlanError (List Snapshot)
  | _, 0 => .ok []
  | i, n + 1 =>
    match snapshotOf fn i fn.instructions[i]? with
    | .error e => .error e
    | .ok snapshot => (collectSnapshots fn (i + 1) n).map (snapshot :: ·)

def snapshotPrefix (fn : BytecodeFunction) : Except PlanError (List Snapshot) :=
  if fn.argumentSnapshotCount < 0 ∨ fn.argumentSnapshotCount > fn.instructions.length then .error .invalidCount
  else if fn.parameterCount + fn.argumentSnapshotCount > fn.registerCount then .error .destinationsExceedRegisters
  else
    match collectSnapshots fn 0 fn.argumentSnapshotCount.toNat with
    | .error e => .error e
    | .ok snapshots =>
      if isArgumentLoad fn.instructions[fn.argumentSnapshotCount.toNat]? then .error .prefixMismatch else .ok snapshots

/-- `findIndex` followed by `splice(index, 1)[0]` -/
def takeFirst {α : Type} (p : α → Bool) : List α → Option (α × List α)
  | [] => none
  | x :: xs => if p x then some (x, xs) else (takeFirst p xs).map fun found => (found.1, x :: found.2)

def isSelfMove (move : Snapshot) : Bool := move.source = some move.destination

def isReady (remaining : List Snapshot) (move : Snapshot) : Bool := remaining.all fun other => other.source ≠ some move.destination

def directMove (move : Snapshot) : Move := ⟨move.destination, move.source.elim sourceCount fun index => index⟩

def saveMove (destination source : ℕ) : Move := ⟨-(destination : ℤ) - 1, source⟩

def restoreMove (destination : ℕ) : Move := ⟨destination, sourceScratch⟩

/-- the loop around one cycle; each round takes a move -/
def resolveCycle (destination : ℕ) : ℕ → List Snapshot → List Move → Except PlanError (List Snapshot × List Move)
  | 0, remaining, plan => .ok (remaining, plan)
  | fuel + 1, remaining, plan =>
    if remaining.any fun move => move.source = some destination then
      match takeFirst (isReady remaining) remaining with
      | none => .error .unableToResolveCycle
      | some (move, rest) => resolveCycle destination fuel rest (plan ++ [directMove move])
    else .ok (remaining, plan)

/-- the scheduling loop; each round takes a move -/
def scheduleLoop : ℕ → List Snapshot → List Move → Except PlanError (List Move)
  | 0, _, plan => .ok plan
  | fuel + 1, remaining, plan =>
    if remaining = [] then .ok plan
    else
      match takeFirst isSelfMove remaining with
      | some (move, rest) => scheduleLoop fuel rest (plan ++ [directMove move])
      | none =>
        match takeFirst (isReady remaining) remaining with
        | some (move, rest) => scheduleLoop fuel rest (plan ++ [directMove move])
        | none =>
          match takeFirst (fun move => move.source.isSome) remaining with
          | some (⟨destination, some source⟩, rest) =>
            match resolveCycle destination rest.length rest (plan ++ [saveMove destination source]) with
            | .error e => .error e
            | .ok (rest, plan) => scheduleLoop fuel rest (plan ++ [restoreMove destination])
          | _ => .error .unableToSchedule

def schedule (snapshots : List Snapshot) : Except PlanError (List Move) := scheduleLoop snapshots.length snapshots []

def buildArgumentSnapshotPlan (fn : BytecodeFunction) : Except PlanError (List Move) :=
  match snapshotPrefix fn with
  | .error e => .error e
  | .ok snapshots => schedule snapshots

/-! ## What a round of the builder can do -/

/-- the builder's state: what remains, what is written, the move whose source is in scratch, the plan so far -/
structure Sched where
  remaining : List Snapshot
  done : List Snapshot
  saved : Option Snapshot
  plan : List Move

def NoSelfMove (moves : List Snapshot) : Prop := ∀ move ∈ moves, move.source ≠ some move.destination

inductive Step : Sched → Sched → Prop
  /-- a self-move, between cycles -/
  | self {s : Sched} {move : Snapshot} {rest : List Snapshot} (split : s.remaining.Perm (move :: rest))
    (idle : s.saved = none) (self : move.source = some move.destination) :
    Step s ⟨rest, move :: s.done, s.saved, s.plan ++ [directMove move]⟩
  /-- a move to a register that no remaining move reads; the self-moves are over -/
  | ready {s : Sched} {move : Snapshot} {rest : List Snapshot} (split : s.remaining.Perm (move :: rest))
    (unread : ∀ other ∈ s.remaining, other.source ≠ some move.destination) (noSelf : NoSelfMove s.remaining) :
    Step s ⟨rest, move :: s.done, s.saved, s.plan ++ [directMove move]⟩
  | save {s : Sched} {move : Snapshot} {rest : List Snapshot} {source : ℕ} (split : s.remaining.Perm (move :: rest))
    (idle : s.saved = none) (reads : move.source = some source) (noSelf : NoSelfMove s.remaining) :
    Step s ⟨rest, s.done, some move, s.plan ++ [saveMove move.destination source]⟩
  | restore {s : Sched} {move : Snapshot} (saved : s.saved = some move)
    (unread : ∀ other ∈ s.remaining, other.source ≠ some move.destination) :
    Step s ⟨s.remaining, move :: s.done, none, s.plan ++ [restoreMove move.destination]⟩

abbrev Steps : Sched → Sched → Prop := Relation.ReflTransGen Step

variable {α : Type} {moves : List Snapshot} {source a b : ℤ} {snapshot : Snapshot} {i k : ℕ}
  {instruction : Option Instruction}

theorem takeFirst_some {p : α → Bool} {l : List α} {x : α} {rest : List α}
    (h : takeFirst p l = some (x, rest)) : p x = true ∧ l.Perm (x :: rest) := by
  induction l generalizing x rest with
  | nil => cases h
  | cons y l ih =>
    rw [takeFirst] at h
    split_ifs at h with hy
    · cases h
      exact ⟨hy, List.Perm.refl _⟩
    obtain ⟨⟨z, tail⟩, hfound, heq⟩ := map_eq_some_iff.1 h
    cases heq
    obtain ⟨hp, hperm⟩ := ih hfound
    exact ⟨hp, (hperm.cons y).trans (List.Perm.swap ..)⟩

theorem takeFirst_none {p : α → Bool} : ∀ {l : List α}, takeFirst p l = none → ∀ x ∈ l, p x = false := by
  intro l
  induction l with
  | nil => intro _ x hx; cases hx
  | cons y l ih =>
    intro h x hx
    rw [takeFirst] at h
    split_ifs at h with hy
    rcases mem_cons.1 hx with rfl | hx
    · simpa using hy
    · exact ih (map_eq_none_iff.1 h) x hx

theorem isReady_iff (remaining : List Snapshot) (move : Snapshot) :
    isReady remaining move = true ↔ ∀ other ∈ remaining, other.source ≠ some move.destination := by
  simp [isReady]

def destinations (moves : List Snapshot) : List ℕ := moves.map Snapshot.destination

def reads (moves : List Snapshot) : List ℕ := moves.filterMap Snapshot.source

variable {index : ℕ} {move : Snapshot} {rest : List Snapshot} {s s' : Sched} {destination : ℤ}

theorem mem_reads : index ∈ reads moves ↔ ∃ move ∈ moves, move.source = some index :=
  mem_filterMap

/-- **A stuck list of moves is a permutation**: with a reader for every destination, every argument read is a
destination, and every move reads one. -/
theorem reads_of_stuck (hnodup : (destinations moves).Nodup)
    (hstuck : ∀ move ∈ moves, ∃ other ∈ moves, other.source = some move.destination) :
    (∀ index ∈ reads moves, index ∈ destinations moves) ∧ ∀ move ∈ moves, move.source.isSome = true := by
  have hsub : destinations moves ⊆ reads moves := by
    intro d hd
    obtain ⟨move, hmove, rfl⟩ := mem_map.1 hd
    exact mem_reads.2 (hstuck move hmove)
  have hlen : (reads moves).length ≤ (destinations moves).length := by
    rw [destinations, length_map]
    exact length_filterMap_le ..
  have hperm : (destinations moves).Perm (reads moves) := (hnodup.subperm hsub).perm_of_length_le hlen
  refine ⟨fun index h => hperm.symm.subset h, fun move hmove => ?_⟩
  by_contra hnone
  have hlt : (reads moves).length < moves.length := by
    rw [reads, length_filterMap_lt_length_iff_exists]
    exact ⟨move, hmove, by simpa using hnone⟩
  have := hperm.length_eq
  rw [destinations, length_map] at this
  omega

variable {remaining snapshots : List Snapshot} {fn : BytecodeFunction}

theorem length_of_perm_cons (h : remaining.Perm (move :: rest)) :
    remaining.length = rest.length + 1 := by rw [h.length_eq, length_cons]

theorem nodup_of_perm_cons (h : remaining.Perm (move :: rest))
    (hnodup : (destinations remaining).Nodup) : move.destination ∉ destinations rest ∧ (destinations rest).Nodup :=
  nodup_cons.1 ((h.map Snapshot.destination).nodup_iff.1 hnodup)

theorem NoSelfMove.of_perm_cons (hself : NoSelfMove remaining) (h : remaining.Perm (move :: rest)) : NoSelfMove rest :=
  fun other hother => hself other (h.symm.subset (mem_cons_of_mem _ hother))

theorem stuck_of_takeFirst (h : takeFirst (isReady remaining) remaining = none) :
    ∀ move ∈ remaining, ∃ other ∈ remaining, other.source = some move.destination := by
  intro move hmove
  by_contra hno
  have hready : isReady remaining move = true :=
    (isReady_iff remaining move).2 fun other hother heq => hno ⟨other, hother, heq⟩
  cases hready.symm.trans (takeFirst_none h move hmove)

/-- **Around a cycle there is always a ready move.** While some move reads the saved destination, which none of them
writes, not every destination can have a reader. -/
theorem exists_ready (hnodup : (destinations remaining).Nodup) {destination : ℕ}
    (habs : destination ∉ destinations remaining) (hread : destination ∈ reads remaining) :
    takeFirst (isReady remaining) remaining ≠ none := by
  intro hnone
  exact habs ((reads_of_stuck hnodup (stuck_of_takeFirst hnone)).1 destination hread)

theorem resolveCycle_steps (cycle : Snapshot) (fuel : ℕ) (remaining done : List Snapshot) (plan : List Move)
    (hnodup : (destinations remaining).Nodup) (habs : cycle.destination ∉ destinations remaining)
    (hself : NoSelfMove remaining) (hfuel : remaining.length ≤ fuel) :
    ∃ remaining' done' plan', resolveCycle cycle.destination fuel remaining plan = .ok (remaining', plan') ∧
      Steps ⟨remaining, done, some cycle, plan⟩ ⟨remaining', done', some cycle, plan'⟩ ∧
      (∀ other ∈ remaining', other.source ≠ some cycle.destination) ∧ (destinations remaining').Nodup ∧
      remaining'.length ≤ remaining.length := by
  induction fuel generalizing remaining done plan with
  | zero =>
    obtain rfl : remaining = [] := length_eq_zero_iff.1 (Nat.le_zero.1 hfuel)
    exact ⟨[], done, plan, rfl, .refl, by simp, hnodup, le_rfl⟩
  | succ fuel ih =>
    rw [resolveCycle]
    split_ifs with hany
    · have hread : cycle.destination ∈ reads remaining := by
        obtain ⟨move, hmove, hsource⟩ := any_eq_true.1 hany
        exact mem_reads.2 ⟨move, hmove, by simpa using hsource⟩
      cases htake : takeFirst (isReady remaining) remaining with
      | none => exact absurd htake (exists_ready hnodup habs hread)
      | some found =>
        obtain ⟨move, rest⟩ := found
        obtain ⟨hready, hperm⟩ := takeFirst_some htake
        have hlen := length_of_perm_cons hperm
        have hrest := nodup_of_perm_cons hperm hnodup
        have habs' : cycle.destination ∉ destinations rest := fun h =>
          habs ((hperm.map Snapshot.destination).symm.subset (mem_cons_of_mem _ h))
        obtain ⟨remaining', done', plan', hrun, hsteps, hunread, hnodup', hle⟩ :=
          ih rest (move :: done) (plan ++ [directMove move]) hrest.2 habs' (hself.of_perm_cons hperm) (by omega)
        exact ⟨remaining', done', plan', hrun, .head (.ready hperm ((isReady_iff _ _).1 hready) hself) hsteps, hunread,
          hnodup', by omega⟩
    · refine ⟨remaining, done, plan, rfl, .refl, fun other hother heq => hany ?_, hnodup, le_rfl⟩
      exact any_eq_true.2 ⟨other, hother, by simpa using heq⟩

/-- **The scheduling loop never throws**: with distinct destinations it is a run of steps to the empty list. -/
theorem scheduleLoop_steps (fuel : ℕ) (remaining done : List Snapshot) (plan : List Move)
    (hnodup : (destinations remaining).Nodup) (hfuel : remaining.length ≤ fuel) :
    ∃ done' plan', scheduleLoop fuel remaining plan = .ok plan' ∧
      Steps ⟨remaining, done, none, plan⟩ ⟨[], done', none, plan'⟩ := by
  induction fuel generalizing remaining done plan with
  | zero =>
    obtain rfl : remaining = [] := length_eq_zero_iff.1 (Nat.le_zero.1 hfuel)
    exact ⟨done, plan, rfl, .refl⟩
  | succ fuel ih =>
    rw [scheduleLoop]
    split_ifs with hnil
    · subst hnil
      exact ⟨done, plan, rfl, .refl⟩
    cases hself : takeFirst isSelfMove remaining with
    | some found =>
      obtain ⟨move, rest⟩ := found
      obtain ⟨hp, hperm⟩ := takeFirst_some hself
      have hlen := length_of_perm_cons hperm
      obtain ⟨done', plan', hrun, hsteps⟩ :=
        ih rest (move :: done) (plan ++ [directMove move]) (nodup_of_perm_cons hperm hnodup).2 (by omega)
      exact ⟨done', plan', hrun, .head (.self hperm rfl (by simpa [isSelfMove] using hp)) hsteps⟩
    | none =>
      have hnoSelf : NoSelfMove remaining := fun move hmove => by
        simpa [isSelfMove] using takeFirst_none hself move hmove
      cases hready : takeFirst (isReady remaining) remaining with
      | some found =>
        obtain ⟨move, rest⟩ := found
        obtain ⟨hp, hperm⟩ := takeFirst_some hready
        have hlen := length_of_perm_cons hperm
        obtain ⟨done', plan', hrun, hsteps⟩ :=
          ih rest (move :: done) (plan ++ [directMove move]) (nodup_of_perm_cons hperm hnodup).2 (by omega)
        exact ⟨done', plan', hrun, .head (.ready hperm ((isReady_iff _ _).1 hp) hnoSelf) hsteps⟩
      | none =>
        have hsome := (reads_of_stuck hnodup (stuck_of_takeFirst hready)).2
        cases hcycle : takeFirst (fun move : Snapshot => move.source.isSome) remaining with
        | none =>
          obtain ⟨move, hmove⟩ := exists_mem_of_ne_nil remaining hnil
          cases (hsome move hmove).symm.trans (takeFirst_none hcycle move hmove)
        | some found =>
          obtain ⟨⟨destination, source⟩, rest⟩ := found
          obtain ⟨hp, hperm⟩ := takeFirst_some hcycle
          obtain ⟨source, rfl⟩ := isSome_iff_exists.1 hp
          have hlen := length_of_perm_cons hperm
          have hrest := nodup_of_perm_cons hperm hnodup
          dsimp only
          obtain ⟨remaining', done', plan', hrun, hsteps, hunread, hnodup', hle⟩ :=
            resolveCycle_steps ⟨destination, some source⟩ rest.length rest done
              (plan ++ [saveMove destination source]) hrest.2 hrest.1 (hnoSelf.of_perm_cons hperm) le_rfl
          rw [hrun]
          obtain ⟨done'', plan'', hrun', hsteps'⟩ :=
            ih remaining' (⟨destination, some source⟩ :: done') (plan' ++ [restoreMove destination]) hnodup' (by omega)
          refine ⟨done'', plan'', hrun', Relation.ReflTransGen.trans (.head ?_ hsteps) (.head ?_ hsteps')⟩
          · exact .save hperm rfl rfl hnoSelf
          · exact .restore rfl hunread

theorem schedule_steps (hnodup : (destinations snapshots).Nodup) :
    ∃ done plan, schedule snapshots = .ok plan ∧ Steps ⟨snapshots, [], none, []⟩ ⟨[], done, none, plan⟩ :=
  scheduleLoop_steps snapshots.length snapshots [] [] hnodup le_rfl

def Sched.all (s : Sched) : List Snapshot := s.done ++ (s.saved.toList ++ s.remaining)

theorem Step.all_perm (h : Step s s') : s.all.Perm s'.all := by
  cases h with
  | self split idle self => exact (List.Perm.append_left _ (List.Perm.append_left _ split)).trans (by
      simp only [idle]
      exact perm_middle)
  | ready split unread =>
    refine (List.Perm.append_left _ ((List.Perm.append_left _ split).trans perm_middle)).trans ?_
    exact perm_middle
  | save split idle reads =>
    simp only [Sched.all, idle]
    exact List.Perm.append_left _ split
  | restore saved unread =>
    simp only [Sched.all, saved]
    exact perm_middle

theorem Steps.all_perm (h : Steps s s') : s.all.Perm s'.all := by
  induction h with
  | refl => exact List.Perm.refl _
  | tail _ hstep ih => exact ih.trans hstep.all_perm

/-! ## The executor -/

/-- a slot of the value stack, or of a coroutine's own buffer -/
inductive Cell where
  | stack (slot : ℤ)
  | buffer (slot : ℤ)
  deriving DecidableEq

/-- the layouts of mal_vm_push_function_frame -/
inductive Layout where
  /-- registers in a heap buffer -/
  | heapResident
  /-- the arguments are kept and the registers lie behind them -/
  | keepsArguments
  /-- the registers lie over the arguments -/
  | aliased
  deriving DecidableEq

structure Window where
  layout : Layout
  argumentBase : ℤ
  argumentCount : ℕ

section

variable (w : Window) (memory : Memory) (state : Memory × MalValue)

def Window.argument (index : ℤ) : Cell := .stack (w.argumentBase + index)

def Window.register (index : ℤ) : Cell :=
  match w.layout with
  | .heapResident => .buffer index
  | .keepsArguments => .stack (w.argumentBase + w.argumentCount + index)
  | .aliased => .stack (w.argumentBase + index)

abbrev Memory := Cell → MalValue

def valueFromI32 (number : ℤ) : MalValue := BitVec.ofNat 64 (0xFFF8 * 2 ^ 48 + (BitVec.ofInt 32 number).toNat)

def readArgument (index : ℤ) : MalValue :=
  if index < w.argumentCount then memory (w.argument index) else valueUndefined

/-- a round of mal_vm_execute_argument_snapshot_plan, on the memory and the scratch value -/
def executeMove (move : Move) : Memory × MalValue :=
  if move.destination < 0 then (state.1, readArgument w state.1 move.source)
  else if move.source = sourceCount then
    (update state.1 (w.register move.destination) (valueFromI32 w.argumentCount), state.2)
  else if move.source = sourceScratch then (update state.1 (w.register move.destination) state.2, state.2)
  else if move.source < w.argumentCount ∧ w.layout = .aliased ∧ move.source = move.destination then state
  else (update state.1 (w.register move.destination) (readArgument w state.1 move.source), state.2)

def executePlan (plan : List Move) : Memory × MalValue :=
  plan.foldl (executeMove w) (memory, valueUndefined)

theorem executePlan_append (plan : List Move) (move : Move) :
    executePlan w memory (plan ++ [move]) = executeMove w (executePlan w memory plan) move := by
  rw [executePlan, foldl_append]
  rfl

theorem executeMove_argument (hd : ¬destination < 0) (hs : 0 ≤ source) : executeMove w state ⟨destination, source⟩ =
      if source < w.argumentCount ∧ w.layout = .aliased ∧ source = destination then state
      else (update state.1 (w.register destination) (readArgument w state.1 source), state.2) := by
  rw [executeMove, if_neg hd, if_neg (show ¬source = sourceCount by rw [sourceCount]; omega),
    if_neg (show ¬source = sourceScratch by rw [sourceScratch]; omega)]

/-- what the interpreter's LOAD_ARGUMENT_COUNT and LOAD_ARGUMENT put into their register -/
def loadValue : Instruction → MalValue
  | .loadArgumentCount _ => valueFromI32 w.argumentCount
  | .loadArgument _ index => if 0 ≤ index ∧ index < w.argumentCount then memory (w.argument index) else valueUndefined
  | .other => valueUndefined

def expected (snapshot : Snapshot) : MalValue :=
  snapshot.source.elim (valueFromI32 w.argumentCount) fun index => readArgument w memory index

end

/-! ## What execution keeps -/

theorem register_injective (w : Window) (h : w.register a = w.register b) : a = b := by
  unfold Window.register at h
  cases hl : w.layout <;> rw [hl] at h <;> simp only [Cell.stack.injEq, Cell.buffer.injEq] at h <;> omega

theorem register_eq_argument {w : Window} {destination : ℕ} (hlt : index < w.argumentCount)
    (h : w.register destination = w.argument index) : w.layout = .aliased ∧ destination = index := by
  unfold Window.register Window.argument at h
  cases hl : w.layout with
  | heapResident => rw [hl] at h; cases h
  | keepsArguments =>
    rw [hl] at h
    simp only [Cell.stack.injEq] at h
    omega
  | aliased =>
    rw [hl] at h
    simp only [Cell.stack.injEq] at h
    exact ⟨rfl, by omega⟩

/-- after part of a plan: the arguments in `clean` are untouched, the registers of `done` are right, and the scratch
value is the one `saved` is to get -/
structure Executed (w : Window) (memory : Memory) (clean : ℕ → Prop) (done : List Snapshot) (saved : Option Snapshot)
    (state : Memory × MalValue) : Prop where
  clean : ∀ index, clean index → index < w.argumentCount → state.1 (w.argument index) = memory (w.argument index)
  done : ∀ snapshot ∈ done, state.1 (w.register snapshot.destination) = expected w memory snapshot
  saved : ∀ snapshot ∈ saved, state.2 = expected w memory snapshot

section Executed

variable {w : Window} {memory : Memory} {clean : ℕ → Prop} {done : List Snapshot} {saved : Option Snapshot}
  {state : Memory × MalValue}

variable {clean' : ℕ → Prop}

section

variable (h : Executed w memory clean done saved state)
include h

theorem Executed.mono (hle : ∀ i, clean' i → clean i) :
    Executed w memory clean' done saved state := ⟨fun i hi => h.clean i (hle i hi), h.done, h.saved⟩

omit h in
theorem Executed.start (w : Window) (memory : Memory) (clean : ℕ → Prop) :
    Executed w memory clean [] none (memory, valueUndefined) :=
  ⟨fun _ _ _ => rfl, by simp, by simp⟩

theorem Executed.readArgument_eq (hclean : clean index) :
    readArgument w state.1 index = readArgument w memory index := by
  unfold readArgument
  split_ifs with hlt
  · exact h.clean index hclean (by exact_mod_cast hlt)
  · rfl

theorem Executed.write (hclean : ∀ i, clean' i → clean i ∧ i ≠ snapshot.destination)
    (hfresh : snapshot.destination ∉ destinations done) {value : MalValue} (hvalue : value = expected w memory snapshot)
    {saved' : Option Snapshot} (hsaved : ∀ s ∈ saved', s ∈ saved) : Executed w memory clean' (snapshot :: done) saved'
      (update state.1 (w.register snapshot.destination) value, state.2) := by
  refine ⟨fun i hi hlt => ?_, fun s hs => ?_, fun s hs => h.saved s (hsaved s hs)⟩
  · have hne : w.argument i ≠ w.register snapshot.destination := fun heq =>
      (hclean i hi).2 (register_eq_argument hlt heq.symm).2.symm
    dsimp only
    rw [update_of_ne hne]
    exact h.clean i (hclean i hi).1 hlt
  · rcases mem_cons.1 hs with rfl | hs
    · dsimp only
      rw [update_self, hvalue]
    have hne : w.register s.destination ≠ w.register snapshot.destination := fun heq => by
      have := register_injective w heq
      exact hfresh (mem_map.2 ⟨s, hs, by exact_mod_cast this⟩)
    dsimp only
    rw [update_of_ne hne]
    exact h.done s hs

/-- **A direct move**: its source is clean; afterwards its destination is not, unless it is a self-move. -/
theorem Executed.direct
    (hsource : ∀ index ∈ snapshot.source, clean index) (hfresh : snapshot.destination ∉ destinations done)
    (hclean : ∀ i, clean' i → clean i ∧ (i ≠ snapshot.destination ∨ snapshot.source = some snapshot.destination)) :
    Executed w memory clean' (snapshot :: done) saved (executeMove w state (directMove snapshot)) := by
  have hnonneg : ¬((snapshot.destination : ℤ) < 0) := by omega
  rw [directMove]
  cases hs : snapshot.source with
  | none =>
    refine h.write (fun i hi => ⟨(hclean i hi).1, (hclean i hi).2.resolve_right ?_⟩) hfresh (by rw [expected, hs]; rfl)
      fun s hs => hs
    simp [hs]
  | some index =>
    have hci : clean index := hsource index hs
    have hexpected : readArgument w state.1 index = expected w memory snapshot := by
      rw [expected, hs]
      exact h.readArgument_eq hci
    rw [elim_some, executeMove_argument w state hnonneg (Int.natCast_nonneg index)]
    split_ifs with hskip
    · -- a present self-move over the arguments is already in place
      obtain ⟨hlt, hal, heq⟩ := hskip
      have hidx : index = snapshot.destination := by exact_mod_cast heq
      refine ⟨fun i hi => h.clean i (hclean i hi).1, fun s hmem => ?_, h.saved⟩
      rcases mem_cons.1 hmem with rfl | hmem
      · rw [← hexpected, readArgument, if_pos hlt, hidx]
        unfold Window.register
        rw [hal]
        rfl
      · exact h.done s hmem
    by_cases hself : index = snapshot.destination
    · -- a missing self-move, or one beside the arguments: no argument is touched
      refine ⟨fun i hi hlt => ?_, fun s hmem => ?_, h.saved⟩
      · dsimp only
        rw [update_of_ne]
        · exact h.clean i (hclean i hi).1 hlt
        · intro heq
          obtain ⟨hal, hd⟩ := register_eq_argument hlt heq.symm
          exact hskip ⟨by rw [hself, hd]; exact_mod_cast hlt, hal, by rw [hself]⟩
      · have hwritten : Executed w memory (fun _ => False) (snapshot :: done) none _ :=
          h.write (fun _ hf => hf.elim) hfresh hexpected fun s hs => absurd hs (not_mem_none s)
        exact hwritten.done s hmem
    · refine h.write (fun i hi => ⟨(hclean i hi).1, (hclean i hi).2.resolve_right ?_⟩) hfresh hexpected fun s hs => hs
      rw [hs]
      simpa using hself

end

/-- **A save** puts the value of the move into scratch. -/
theorem Executed.save (h : Executed w memory clean done none state)
    (hs : snapshot.source = some index) (hclean : clean index) :
    Executed w memory clean done (some snapshot) (executeMove w state (saveMove snapshot.destination index)) := by
  rw [saveMove, executeMove, if_pos (show -(snapshot.destination : ℤ) - 1 < 0 by omega)]
  refine ⟨h.clean, h.done, fun s hmem => ?_⟩
  cases hmem
  rw [expected, hs]
  exact h.readArgument_eq hclean

/-- **A restore** writes the scratch value. -/
theorem Executed.restore (h : Executed w memory clean done (some snapshot) state)
    (hfresh : snapshot.destination ∉ destinations done) (hclean : ∀ i, clean' i → clean i ∧ i ≠ snapshot.destination) :
    Executed w memory clean' (snapshot :: done) none (executeMove w state (restoreMove snapshot.destination)) := by
  exact h.write hclean hfresh (h.saved snapshot rfl) (by simp)

end Executed

/-! ## The plan is a parallel move -/

def Sched.Sound (s : Sched) : Prop :=
  (destinations s.all).Nodup ∧
    ∀ (w : Window) (memory : Memory),
      Executed w memory (fun index => index ∈ reads s.remaining) s.done s.saved (executePlan w memory s.plan)

theorem destinations_append (a b : List Snapshot) : destinations (a ++ b) = destinations a ++ destinations b :=
  map_append

theorem Sched.fresh (h : (destinations s.all).Nodup)
    (hmem : move ∈ s.saved.toList ++ s.remaining) : move.destination ∉ destinations s.done := by
  rw [Sched.all, destinations_append] at h
  exact fun hd => (nodup_append.1 h).2.2 _ hd _ (mem_map_of_mem hmem) rfl

theorem mem_reads_of_perm_cons (h : remaining.Perm (move :: rest))
    (hi : index ∈ reads rest) : index ∈ reads remaining := by
  obtain ⟨other, hother, hs⟩ := mem_reads.1 hi
  exact mem_reads.2 ⟨other, h.symm.subset (mem_cons_of_mem _ hother), hs⟩

theorem Step.sound (h : Step s s') (hs : s.Sound) : s'.Sound := by
  refine ⟨(h.all_perm.map Snapshot.destination).nodup_iff.1 hs.1, fun w memory => ?_⟩
  have hex := hs.2 w memory
  cases h <;> rw [executePlan_append]
  case self move rest split idle self =>
    have hmem : move ∈ s.remaining := split.symm.subset (mem_cons_self ..)
    exact hex.direct (fun index hi => mem_reads.2 ⟨move, hmem, hi⟩)
      (Sched.fresh hs.1 (mem_append_right _ hmem)) fun i hi => ⟨mem_reads_of_perm_cons split hi, .inr self⟩
  case ready move rest split unread noSelf =>
    have hmem : move ∈ s.remaining := split.symm.subset (mem_cons_self ..)
    refine hex.direct (fun index hi => mem_reads.2 ⟨move, hmem, hi⟩) (Sched.fresh hs.1 (mem_append_right _ hmem))
      fun i hi => ⟨mem_reads_of_perm_cons split hi, .inl fun heq => ?_⟩
    obtain ⟨other, hother, hread⟩ := mem_reads.1 (mem_reads_of_perm_cons split hi)
    exact unread other hother (by rw [hread, heq])
  case save move rest source split idle hreads noSelf =>
    have hmem : move ∈ s.remaining := split.symm.subset (mem_cons_self ..)
    rw [idle] at hex
    exact (hex.save hreads (mem_reads.2 ⟨move, hmem, hreads⟩)).mono fun i hi => mem_reads_of_perm_cons split hi
  case restore move saved unread =>
    have hfresh : move.destination ∉ destinations s.done :=
      Sched.fresh hs.1 (mem_append_left _ (by rw [saved]; exact mem_singleton_self _))
    rw [saved] at hex
    refine hex.restore hfresh fun i hi => ⟨hi, fun heq => ?_⟩
    obtain ⟨other, hother, hread⟩ := mem_reads.1 hi
    exact unread other hother (by rw [hread, heq])

theorem Steps.sound (h : Steps s s') (hs : s.Sound) : s'.Sound := by
  induction h with
  | refl => exact hs
  | tail _ hstep ih => exact hstep.sound ih

/-! ## The prefix -/

theorem snapshotOf_spec (h : snapshotOf fn i instruction = .ok snapshot) :
    snapshot.destination = fn.parameterCount + i ∧
      (instruction = some (.loadArgumentCount (fn.parameterCount + i)) ∧ snapshot.source = none ∨
        ∃ index : ℕ, index ≤ 0x7fffffff ∧ instruction = some (.loadArgument (fn.parameterCount + i) index) ∧
          snapshot.source = some index) := by
  unfold snapshotOf at h
  split at h
  · next dst =>
    split_ifs at h with hd
    cases h
    rw [not_not] at hd
    exact ⟨rfl, .inl ⟨by rw [hd], rfl⟩⟩
  · next dst index =>
    split_ifs at h with hd hbig hneg
    cases h
    rw [not_not] at hd
    have hcast : (index.toNat : ℤ) = index := Int.toNat_of_nonneg (by omega)
    exact ⟨rfl, .inr ⟨index.toNat, by omega, by rw [hd, hcast], rfl⟩⟩
  · cases h

theorem collectSnapshots_spec : ∀ {n i : ℕ} {snapshots : List Snapshot},
    collectSnapshots fn i n = .ok snapshots → snapshots.length = n ∧
      ∀ k < n, ∃ snapshot, snapshots[k]? = some snapshot ∧ snapshotOf fn (i + k) fn.instructions[i + k]? = .ok snapshot := by
  intro n
  induction n with
  | zero =>
    intro i snapshots h
    cases h
    exact ⟨rfl, nofun⟩
  | succ n ih =>
    intro i snapshots h
    rw [collectSnapshots] at h
    cases hfirst : snapshotOf fn i fn.instructions[i]? with
    | error e => rw [hfirst] at h; cases h
    | ok snapshot =>
      rw [hfirst] at h
      cases htail : collectSnapshots fn (i + 1) n with
      | error e => rw [htail] at h; cases h
      | ok tail =>
        rw [htail] at h
        cases h
        obtain ⟨hlen, hall⟩ := ih htail
        refine ⟨by rw [length_cons, hlen], fun k hk => ?_⟩
        cases k with
        | zero => exact ⟨snapshot, rfl, hfirst⟩
        | succ k =>
          obtain ⟨s, hget, hs⟩ := hall k (by omega)
          rw [show i + 1 + k = i + (k + 1) by omega] at hs
          exact ⟨s, by rw [getElem?_cons_succ, hget], hs⟩

section

variable (h : snapshotPrefix fn = .ok snapshots)
include h

theorem snapshotPrefix_spec : fn.argumentSnapshotCount = snapshots.length ∧ snapshots.length ≤ fn.instructions.length ∧
      fn.parameterCount + snapshots.length ≤ fn.registerCount ∧
      isArgumentLoad fn.instructions[snapshots.length]? = false ∧
      ∀ k (hk : k < snapshots.length), snapshotOf fn k fn.instructions[k]? = .ok snapshots[k] := by
  unfold snapshotPrefix at h
  cases hcollect : collectSnapshots fn 0 fn.argumentSnapshotCount.toNat with
  | error e => rw [hcollect] at h; split_ifs at h
  | ok list =>
    rw [hcollect] at h
    split_ifs at h with hcount hregisters hnext
    cases h
    obtain ⟨hlen, hall⟩ := collectSnapshots_spec hcollect
    have hcast : fn.argumentSnapshotCount = (snapshots.length : ℤ) := by omega
    refine ⟨hcast, by omega, by omega, by rw [hlen]; simpa using hnext, fun k hk => ?_⟩
    obtain ⟨s, hget, hs⟩ := hall k (by omega)
    rw [getElem?_eq_getElem hk, some_inj] at hget
    rw [hget]
    simpa using hs

theorem destinations_of_entries :
    ∀ k (hk : k < snapshots.length), snapshots[k].destination = fn.parameterCount + k := fun k hk =>
  (snapshotOf_spec ((snapshotPrefix_spec h).2.2.2.2 k hk)).1

theorem nodup_destinations : (destinations snapshots).Nodup := by
  rw [destinations, nodup_iff_injective_getElem]
  intro a b hab
  have ha := destinations_of_entries h a.1 (by simpa using a.2)
  have hb := destinations_of_entries h b.1 (by simpa using b.2)
  simp only [getElem_map] at hab
  apply Fin.ext
  omega

end

theorem expected_eq_loadValue (h : snapshotOf fn k instruction = .ok snapshot) (w : Window) (memory : Memory) :
    some (expected w memory snapshot) = instruction.map (loadValue w memory) := by
  obtain ⟨-, ⟨hi, hs⟩ | ⟨index, -, hi, hs⟩⟩ := snapshotOf_spec h
  · rw [hi, expected, hs]
    rfl
  · rw [hi, expected, hs, map_some, loadValue, elim_some, readArgument]
    simp only [Int.natCast_nonneg, true_and]

/-- **Argument snapshot plans are parallel moves.** For every prefix that passes the checks the builder returns a plan,
and in each layout, for every argument count, executing it leaves in the register of every snapshot what its instruction
loads from the arguments as they were. -/
theorem snapshot_plan_correct (fn : BytecodeFunction) (snapshots : List Snapshot)
    (h : snapshotPrefix fn = .ok snapshots) :
    ∃ plan, buildArgumentSnapshotPlan fn = .ok plan ∧
      ∀ (w : Window) (memory : Memory) (i : ℕ), (i : ℤ) < fn.argumentSnapshotCount →
        some ((executePlan w memory plan).1 (w.register (fn.parameterCount + i))) =
          fn.instructions[i]?.map (loadValue w memory) := by
  obtain ⟨hcount, -, -, -, hall⟩ := snapshotPrefix_spec h
  have hnodup := nodup_destinations h
  obtain ⟨done, plan, hplan, hsteps⟩ := schedule_steps hnodup
  refine ⟨plan, by rw [buildArgumentSnapshotPlan, h]; exact hplan, fun w memory i hi => ?_⟩
  have hstart : Sched.Sound ⟨snapshots, [], none, []⟩ := ⟨hnodup, fun w memory => Executed.start w memory _⟩
  have hend := (hsteps.sound hstart).2 w memory
  have hk : i < snapshots.length := by omega
  have hperm : snapshots.Perm done := by
    have h := hsteps.all_perm
    simpa [Sched.all] using h
  have hval := hend.done snapshots[i] (hperm.subset (getElem_mem hk))
  rw [destinations_of_entries h i hk] at hval
  rw [← expected_eq_loadValue (hall i hk) w memory, ← hval]
  rfl

def swapFunction : BytecodeFunction :=
  ⟨4, [.loadArgument 2 3, .loadArgument 3 2, .loadArgument 4 4, .loadArgumentCount 5, .other], 2, 6, by decide⟩

theorem snapshot_plan_correct_swap :
    snapshotPrefix swapFunction = .ok [⟨2, some 3⟩, ⟨3, some 2⟩, ⟨4, some 4⟩, ⟨5, none⟩] ∧
      ∃ plan, buildArgumentSnapshotPlan swapFunction = .ok plan ∧
        ∀ (w : Window) (memory : Memory) (i : ℕ), (i : ℤ) < swapFunction.argumentSnapshotCount →
          some ((executePlan w memory plan).1 (w.register (swapFunction.parameterCount + i))) =
            swapFunction.instructions[i]?.map (loadValue w memory) :=
  ⟨by decide, snapshot_plan_correct swapFunction [⟨2, some 3⟩, ⟨3, some 2⟩, ⟨4, some 4⟩, ⟨5, none⟩] (by decide)⟩

end Maligator.Frame
