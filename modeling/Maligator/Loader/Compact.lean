/-
`mal_loaded_compact_jumps` (`vm_load.c`) and what the interpreter does with a function.

The loader threads forward jump chains, turns a JUMP_IF over an untargeted JUMP into a negated JUMP_IF, drops forward jumps
to the next surviving instruction, and remaps every instruction pointer the function holds. The interpreter is modelled
over any set of other opcodes: `Machine` says what they do to the registers and which registers are truthy.

`thread_getElem?`, `invertLoop_spec` and `dropLoop_spec` say what the three loops leave; they are the only facts about the
loops that the simulation uses.
-/
import Mathlib.Data.List.Basic
import Mathlib.Algebra.Order.Ring.Int

namespace Maligator.Loader

open List Function

/-! ## Functions -/

/-- MalInstruction: the two jumps, and every other opcode -/
inductive Instr (Op : Type) where
  | jump (target : ℕ)
  | jumpIf (cond : ℕ) (negate : Bool) (target : ℕ)
  | op (operation : Op)

/-- MalExceptionHandler -/
structure Handler where
  startIp : ℕ
  endIp : ℕ
  handlerIp : ℕ

/-- MalLineEntry -/
structure LineEntry where
  startIp : ℕ
  posId : ℤ

/-- a row of gc_safepoints: its instruction, the roots and the registers to clear -/
structure Safepoint where
  ip : ℕ
  roots : List ℕ
  clears : List ℕ

/-- the fields of MalFunction that compaction reads or writes -/
structure MalFunction (Op : Type) where
  instructions : List (Instr Op)
  handlers : List Handler
  positions : List LineEntry
  gcSafepoints : List Safepoint
  argumentSnapshotCount : ℕ

variable {Op : Type}

def Instr.target? : Instr Op → Option ℕ
  | .jump target => some target
  | .jumpIf _ _ target => some target
  | .op _ => none

/-! ## Compaction -/

/-- mal_loaded_forward_jump_end; every round goes on to a later instruction -/
def forwardJumpEnd (code : List (Instr Op)) : ℕ → ℕ → ℕ
  | 0, target => target
  | fuel + 1, target =>
    match code[target]? with
    | some (.jump next) => if next > target then forwardJumpEnd code fuel next else target
    | _ => target

section

variable (code : List (Instr Op))

def threadAt (ip : ℕ) : Instr Op → Instr Op
  | .jump target => .jump (if target > ip then forwardJumpEnd code code.length target else target)
  | .jumpIf cond negate target => .jumpIf cond negate (if target > ip then forwardJumpEnd code code.length target else target)
  | .op operation => .op operation

def threadLoop : ℕ → ℕ → List (Instr Op) → List (Instr Op)
  | 0, _, code => code
  | n + 1, ip, code =>
    threadLoop n (ip + 1) (match code[ip]? with
      | some instr => code.set ip (threadAt code ip instr)
      | none => code)

def thread : List (Instr Op) := threadLoop code.length 0 code

def isTargeted (handlers : List Handler) (ip : ℕ) : Bool :=
  code.any (fun instr => instr.target? = some ip) || handlers.any fun handler => handler.handlerIp = ip

/-- a JUMP_IF over the next instruction, which is a JUMP that nothing targets -/
def absorbs (targeted : ℕ → Bool) (ip : ℕ) : Bool :=
  match code[ip]?, code[ip + 1]? with
  | some (.jumpIf _ _ target), some (.jump _) => target = ip + 2 && !targeted (ip + 1)
  | _, _ => false

def invertBranch (ip : ℕ) : Option (Instr Op) :=
  match code[ip]?, code[ip + 1]? with
  | some (.jumpIf cond negate _), some (.jump far) => some (.jumpIf cond (!negate) far)
  | instr, _ => instr

def invertLoop (targeted : ℕ → Bool) : ℕ → ℕ → List (Instr Op) → (ℕ → Bool) → List (Instr Op) × (ℕ → Bool)
  | 0, _, code, removed => (code, removed)
  | fuel + 1, ip, code, removed =>
    if ip + 1 < code.length then
      if absorbs code targeted ip then
        invertLoop targeted fuel (ip + 2) (match invertBranch code ip with
          | some instr => code.set ip instr
          | none => code) (update removed (ip + 1) true)
      else invertLoop targeted fuel (ip + 1) code removed
    else (code, removed)

def nextKept (removed : ℕ → Bool) (count : ℕ) : ℕ → ℕ → ℕ
  | 0, after => after
  | fuel + 1, after => if after < count ∧ removed after = true then nextKept removed count fuel (after + 1) else after

/-- a forward JUMP to the next instruction that is left -/
def jumpsToNext (removed : ℕ → Bool) (ip : ℕ) : Bool :=
  match code[ip]? with
  | some (.jump target) => target > ip && target = nextKept removed code.length code.length (ip + 1)
  | _ => false

end

/-- the loop that drops jumps, from the last instruction down to the prefix -/
def dropLoop (code : List (Instr Op)) (start : ℕ) : ℕ → (ℕ → Bool) → (ℕ → Bool)
  | 0, removed => removed
  | ip + 1, removed =>
    if ip < start then removed
    else dropLoop code start ip (if !removed ip && jumpsToNext code removed ip then update removed ip true else removed)

/-- remap[ip]: the number of instructions kept before ip -/
def remap (removed : ℕ → Bool) : ℕ → ℕ
  | 0 => 0
  | ip + 1 => remap removed ip + if removed ip then 0 else 1

def Instr.retarget (f : ℕ → ℕ) : Instr Op → Instr Op
  | .jump target => .jump (f target)
  | .jumpIf cond negate target => .jumpIf cond negate (f target)
  | .op operation => .op operation

def keptCode (code : List (Instr Op)) (removed : ℕ → Bool) (f : ℕ → ℕ) : ℕ → List (Instr Op)
  | 0 => []
  | n + 1 => keptCode code removed f n ++ if removed n then [] else (code[n]?.map (Instr.retarget f)).toList

def Handler.remap (f : ℕ → ℕ) (handler : Handler) : Handler := ⟨f handler.startIp, f handler.endIp, f handler.handlerIp⟩

def inverted (fn : MalFunction Op) : List (Instr Op) × (ℕ → Bool) :=
  let code := thread fn.instructions
  invertLoop (isTargeted code fn.handlers) code.length fn.argumentSnapshotCount code fun _ => false

/-- `removed` after both loops -/
def removedJumps (fn : MalFunction Op) : ℕ → Bool :=
  dropLoop (inverted fn).1 fn.argumentSnapshotCount fn.instructions.length (inverted fn).2

def compactJumps (fn : MalFunction Op) : MalFunction Op :=
  let count := fn.instructions.length
  if count < 2 then fn
  else
    let removed := removedJumps fn
    let ipMap := remap removed
    if ipMap count = count then { fn with instructions := (inverted fn).1 }
    else
      { instructions := keptCode (inverted fn).1 removed ipMap count
        handlers := fn.handlers.map (Handler.remap ipMap)
        positions := fn.positions.map fun entry => { entry with startIp := ipMap entry.startIp }
        gcSafepoints := (fn.gcSafepoints.filter fun row => !removed row.ip).map fun row => { row with ip := ipMap row.ip }
        argumentSnapshotCount := ipMap fn.argumentSnapshotCount }

/-! ## The interpreter -/

inductive Outcome (Regs : Type) where
  | next (registers : Regs)
  | throws (registers : Regs)
  | leaves

/-- what the other opcodes do, and which registers hold a truthy value -/
structure Machine (Op Regs : Type) where
  execute : Op → Regs → Outcome Regs
  truthy : Regs → ℕ → Bool

def Handler.covers (handler : Handler) (ip : ℕ) : Bool := !(ip < handler.startIp || ip ≥ handler.endIp)

def Handler.size (handler : Handler) : ℕ := handler.endIp - handler.startIp

/-- the search of mal_vm_unwind_to_handler, from handler i on; the result is an index of the table -/
def innermostFrom (ip : ℕ) : Option (ℕ × Handler) → ℕ → List Handler → Option (ℕ × Handler)
  | best, _, [] => best
  | best, i, handler :: rest =>
    innermostFrom ip
      (if !handler.covers ip then best
       else
         match best with
         | none => some (i, handler)
         | some (j, other) => if handler.size < other.size then some (i, handler) else some (j, other))
      (i + 1) rest

def innermost (fn : MalFunction Op) (ip : ℕ) : Option (ℕ × Handler) := innermostFrom ip none 0 fn.handlers

def positionFor (entries : List LineEntry) (ip : ℕ) : ℤ :=
  ((entries.takeWhile fun entry => entry.startIp ≤ ip).getLast?).elim (-1) LineEntry.posId

/-- what can be seen of a run: the polls of backward jumps, and each other instruction with its registers, its source
position and the handler that a throw would reach -/
inductive Event (Op Regs : Type) where
  | poll
  | execute (operation : Op) (registers : Regs) (position : ℤ) (handler : Option ℕ)

inductive State (Regs : Type) where
  | running (ip : ℕ) (registers : Regs)
  | halted

def pollIf {Regs : Type} (backedge : Bool) : List (Event Op Regs) := if backedge then [.poll] else []

def afterOperation {Regs : Type} (fn : MalFunction Op) (ip : ℕ) : Outcome Regs → State Regs
  | .next registers => .running (ip + 1) registers
  | .throws registers =>
    match innermost fn ip with
    | some (_, handler) => .running handler.handlerIp registers
    | none => .halted
  | .leaves => .halted

/-- one instruction of the interpreter -/
inductive Step {Regs : Type} (machine : Machine Op Regs) (fn : MalFunction Op) : State Regs → List (Event Op Regs) → State Regs → Prop
  | jump {ip target : ℕ} {registers : Regs} (code : fn.instructions[ip]? = some (.jump target)) :
    Step machine fn (.running ip registers) (pollIf (decide (target < ip + 1))) (.running target registers)
  | taken {ip cond target : ℕ} {negate : Bool} {registers : Regs}
    (code : fn.instructions[ip]? = some (.jumpIf cond negate target)) (taken : machine.truthy registers cond ≠ negate) :
    Step machine fn (.running ip registers) (pollIf (decide (target < ip + 1))) (.running target registers)
  | untaken {ip cond target : ℕ} {negate : Bool} {registers : Regs}
    (code : fn.instructions[ip]? = some (.jumpIf cond negate target)) (untaken : machine.truthy registers cond = negate) :
    Step machine fn (.running ip registers) [] (.running (ip + 1) registers)
  | operation {ip : ℕ} {operation : Op} {registers : Regs} (code : fn.instructions[ip]? = some (.op operation)) :
    Step machine fn (.running ip registers)
      [.execute operation registers (positionFor fn.positions ip) ((innermost fn ip).map Prod.fst)]
      (afterOperation fn ip (machine.execute operation registers))

/-! ## Threading -/

variable {code : List (Instr Op)} {ip : ℕ} {targeted removed : ℕ → Bool}
  {code' : List (Instr Op)} {original : List (Instr Op)} {removed' : ℕ → Bool} {f : ℕ → ℕ} {start : ℕ}

theorem forwardJumpEnd_congr (fuel target : ℕ) (h : ∀ k, target ≤ k → code[k]? = code'[k]?) :
    forwardJumpEnd code fuel target = forwardJumpEnd code' fuel target := by
  induction fuel generalizing target with
  | zero => rfl
  | succ fuel ih =>
    rw [forwardJumpEnd, forwardJumpEnd, h target le_rfl]
    split
    · next next _ =>
      split_ifs with hlt
      · exact ih next fun k hk => h k (by omega)
      · rfl
    · rfl

theorem threadAt_congr (hlen : code.length = code'.length)
    (h : ∀ k, ip < k → code[k]? = code'[k]?) (instr : Instr Op) : threadAt code ip instr = threadAt code' ip instr := by
  cases instr with
  | jump target | jumpIf cond negate target =>
    rw [threadAt, threadAt, hlen]
    split_ifs with hlt
    · rw [forwardJumpEnd_congr _ _ fun k hk => h k (by omega)]
    · rfl
  | op operation => rfl

theorem threadLoop_getElem? : ∀ (n ip : ℕ) (code : List (Instr Op)),
    code.length = original.length → ip + n = original.length →
    (∀ k, code[k]? = if k < ip then original[k]?.map (threadAt original k) else original[k]?) →
    ∀ k, (threadLoop n ip code)[k]? = original[k]?.map (threadAt original k) := by
  intro n
  induction n with
  | zero =>
    intro ip code _ hend hcode k
    rw [threadLoop, hcode k]
    split_ifs with hk
    · rfl
    · rw [getElem?_eq_none (by omega : original.length ≤ k), Option.map_none]
  | succ n ih =>
    intro ip code hlen hend hcode k
    rw [threadLoop]
    have hip : code[ip]? = original[ip]? := by rw [hcode ip, if_neg (lt_irrefl ip)]
    obtain ⟨instr, hinstr⟩ : ∃ instr, original[ip]? = some instr := ⟨_, getElem?_eq_getElem (by omega)⟩
    rw [hip, hinstr]
    refine ih (ip + 1) _ (by rw [length_set, hlen]) (by omega) (fun j => ?_) k
    rw [getElem?_set]
    by_cases hj : ip = j
    · subst hj
      rw [if_pos rfl, if_pos (by omega), if_pos (by omega), hinstr, Option.map_some,
        threadAt_congr hlen fun k hk => by rw [hcode k, if_neg (by omega)]]
    rw [if_neg hj, hcode j]
    by_cases hlt : j < ip
    · rw [if_pos hlt, if_pos (by omega)]
    · rw [if_neg hlt, if_neg (by omega)]

/-- **The threading loop** threads every instruction over the original code. -/
theorem thread_getElem? (code : List (Instr Op)) (k : ℕ) : (thread code)[k]? = code[k]?.map (threadAt code k) :=
  threadLoop_getElem? code.length 0 code rfl (Nat.zero_add _) (fun j => by rw [if_neg (Nat.not_lt_zero j)]) k

theorem threadLoop_length (n ip : ℕ) (code : List (Instr Op)) : (threadLoop n ip code).length = code.length := by
  induction n generalizing ip code with
  | zero => rfl
  | succ n ih =>
    rw [threadLoop, ih]
    split
    · rw [length_set]
    · rfl

@[simp] theorem length_thread (code : List (Instr Op)) : (thread code).length = code.length := threadLoop_length _ _ _

/-! ## Branches over jumps -/

theorem absorbs_iff : absorbs code targeted ip = true ↔
    ∃ cond negate far, code[ip]? = some (.jumpIf cond negate (ip + 2)) ∧ code[ip + 1]? = some (.jump far) ∧
      targeted (ip + 1) = false := by
  unfold absorbs
  split
  · next cond negate target far hbranch hjump =>
    rw [Bool.and_eq_true, decide_eq_true_eq, Bool.not_eq_true']
    constructor
    · rintro ⟨rfl, ht⟩
      exact ⟨cond, negate, far, hbranch, hjump, ht⟩
    · rintro ⟨c, n, f, hb, -, ht⟩
      rw [hbranch] at hb
      cases hb
      exact ⟨rfl, ht⟩
  · next hno =>
    refine ⟨nofun, ?_⟩
    rintro ⟨c, n, f, hb, hj, -⟩
    exact (hno c n (ip + 2) f hb hj).elim

theorem absorbs_succ (h : absorbs code targeted ip = true) : absorbs code targeted (ip + 1) = false := by
  obtain ⟨cond, negate, far, -, hjump, -⟩ := absorbs_iff.1 h
  rw [Bool.eq_false_iff, ne_eq, absorbs_iff]
  rintro ⟨c, n, f, hb, -⟩
  rw [hjump] at hb
  cases hb

theorem absorbs_congr (h : ∀ k, ip ≤ k → code[k]? = code'[k]?) :
    absorbs code targeted ip = absorbs code' targeted ip := by
  rw [absorbs, absorbs, h ip le_rfl, h (ip + 1) (by omega)]

/-- the branches of a set are negated, and the jumps behind them removed -/
structure Inverts (original : List (Instr Op)) (done : ℕ → Prop) (code : List (Instr Op)) (removed : ℕ → Bool) : Prop where
  negated : ∀ k, done k → code[k]? = invertBranch original k
  other : ∀ k, ¬done k → code[k]? = original[k]?
  removed : ∀ x, removed x = true ↔ ∃ k, x = k + 1 ∧ done k

section Inverts

variable {done done' : ℕ → Prop}

theorem Inverts.congr (h : Inverts original done code removed) (hiff : ∀ k, done k ↔ done' k) :
    Inverts original done' code removed := by
  obtain rfl : done = done' := funext fun k => propext (hiff k)
  exact h

theorem Inverts.insert (h : Inverts original done code removed) (hip : ip < code.length) {instr : Instr Op}
    (hinstr : invertBranch original ip = some instr) :
    Inverts original (fun k => k = ip ∨ done k) (code.set ip instr) (update removed (ip + 1) true) := by
  refine ⟨fun k hk => ?_, fun k hk => ?_, fun x => ?_⟩
  · rw [getElem?_set]
    split_ifs with heq
    · rw [← heq, hinstr]
    · exact h.negated k (hk.resolve_left (Ne.symm heq))
  · rw [not_or] at hk
    rw [getElem?_set_ne (Ne.symm hk.1), h.other k hk.2]
  · rw [update_apply]
    split_ifs with hx
    · exact iff_of_true rfl ⟨ip, hx, .inl rfl⟩
    rw [h.removed x]
    refine exists_congr fun k => and_congr_right fun hk => (or_iff_right ?_).symm
    rintro rfl
    exact hx hk

/-- **The branch loop** negates every branch behind the prefix that absorbs a jump, and removes just those jumps. -/
theorem invertLoop_spec (fuel ip : ℕ) (code : List (Instr Op)) (removed : ℕ → Bool) (hlen : code.length = original.length)
    (hstart : start ≤ ip) (hfuel : original.length ≤ ip + fuel)
    (h : Inverts original (fun k => start ≤ k ∧ k < ip ∧ absorbs original targeted k = true) code removed) :
    Inverts original (fun k => start ≤ k ∧ absorbs original targeted k = true) (invertLoop targeted fuel ip code removed).1
      (invertLoop targeted fuel ip code removed).2 := by
  have hlast : ∀ {ip}, original.length ≤ ip + 1 → ∀ k, start ≤ k ∧ k < ip ∧ absorbs original targeted k = true ↔
      start ≤ k ∧ absorbs original targeted k = true := by
    intro ip hip k
    refine and_congr_right fun _ => and_iff_right_of_imp fun hk => ?_
    obtain ⟨_, _, _, -, hjump, -⟩ := absorbs_iff.1 hk
    have := (List.getElem?_eq_some_iff.1 hjump).1
    omega
  induction fuel generalizing ip code removed with
  | zero => exact h.congr (hlast (by omega))
  | succ fuel ih =>
    rw [invertLoop]
    have hsame : ∀ k, ip ≤ k → code[k]? = original[k]? := fun k hk => h.other k (by omega)
    split_ifs with hlt habs
    · rw [absorbs_congr hsame] at habs
      have hnext := absorbs_succ habs
      have hbranch : invertBranch code ip = invertBranch original ip := by
        rw [invertBranch, invertBranch, hsame ip le_rfl, hsame (ip + 1) (by omega)]
      obtain ⟨cond, negate, far, hb, hj, -⟩ := absorbs_iff.1 habs
      have hvalue : invertBranch original ip = some (.jumpIf cond (!negate) far) := by rw [invertBranch, hb, hj]
      rw [hbranch, hvalue]
      refine ih (ip + 2) _ _ (by rw [length_set, hlen]) (by omega) (by omega)
        ((h.insert (by omega) hvalue).congr fun k => ⟨?_, fun ⟨hs, hk, ha⟩ => ?_⟩)
      · rintro (rfl | ⟨hs, hk, ha⟩)
        · exact ⟨hstart, by omega, habs⟩
        · exact ⟨hs, by omega, ha⟩
      · rcases (by omega : k < ip ∨ k = ip ∨ k = ip + 1) with hk | hk | rfl
        · exact .inr ⟨hs, hk, ha⟩
        · exact .inl hk
        · cases hnext.symm.trans ha
    · rw [absorbs_congr hsame] at habs
      refine ih (ip + 1) code removed hlen (by omega) (by omega) (h.congr fun k => ?_)
      refine and_congr_right fun _ => and_congr_left fun ha => ⟨fun hk => by omega, fun hk => ?_⟩
      by_contra hge
      obtain rfl : k = ip := by omega
      exact habs ha
    · exact h.congr (hlast (by omega))

end Inverts

/-! ## Jumps to the next instruction -/

theorem nextKept_congr {count : ℕ} (fuel after : ℕ) (h : ∀ k, after ≤ k → removed k = removed' k) :
    nextKept removed count fuel after = nextKept removed' count fuel after := by
  induction fuel generalizing after with
  | zero => rfl
  | succ fuel ih =>
    rw [nextKept, nextKept, h after le_rfl, ih (after + 1) fun k hk => h k (by omega)]

variable {removed₀ : ℕ → Bool} {a b other n j : ℕ}

theorem nextKept_spec {count : ℕ} (fuel after : ℕ) (hfuel : count ≤ after + fuel)
    (hle : after ≤ count) : after ≤ nextKept removed count fuel after ∧ nextKept removed count fuel after ≤ count ∧
      (∀ k, after ≤ k → k < nextKept removed count fuel after → removed k = true) ∧
      (nextKept removed count fuel after < count → removed (nextKept removed count fuel after) = false) := by
  induction fuel generalizing after with
  | zero => exact ⟨le_rfl, hle, fun k h h' => absurd h' (by rw [nextKept]; omega), fun h => absurd h (by rw [nextKept]; omega)⟩
  | succ fuel ih =>
    rw [nextKept]
    split_ifs with h
    · obtain ⟨h1, h2, h3, h4⟩ := ih (after + 1) (by omega) (by omega)
      refine ⟨by omega, h2, fun k hk hk' => ?_, h4⟩
      by_cases heq : k = after
      · rw [heq]
        exact h.2
      · exact h3 k (by omega) hk'
    · refine ⟨le_rfl, hle, fun k hk hk' => by omega, fun hlt => ?_⟩
      by_contra hne
      exact h ⟨hlt, by simpa using hne⟩

theorem jumpsToNext_congr
    (h : ∀ k, ip < k → removed k = removed' k) : jumpsToNext code removed ip = jumpsToNext code removed' ip := by
  rw [jumpsToNext, jumpsToNext, nextKept_congr _ _ fun k hk => h k (by omega)]

/-- **The dropping loop** removes, besides what is removed already, each jump behind the prefix to the next instruction
that is left in the end. -/
theorem dropLoop_spec : ∀ (n : ℕ) (removed : ℕ → Bool), (∀ k, removed k = true ↔ removed₀ k = true ∨
      start ≤ k ∧ n ≤ k ∧ k < code.length ∧ removed₀ k = false ∧ jumpsToNext code removed k = true) → n ≤ code.length →
    ∀ k, dropLoop code start n removed k = true ↔ removed₀ k = true ∨
      start ≤ k ∧ k < code.length ∧ removed₀ k = false ∧ jumpsToNext code (dropLoop code start n removed) k = true := by
  intro n
  induction n with
  | zero =>
    intro removed h _ k
    rw [dropLoop, h k]
    simp only [Nat.zero_le, true_and]
  | succ ip ih =>
    intro removed h hn k
    have hold : removed ip = true ↔ removed₀ ip = true := by
      rw [h ip]
      exact ⟨fun h => h.resolve_right fun h => by omega, .inl⟩
    rw [dropLoop]
    split_ifs with hstart hdrop
    · rw [h k]
      exact or_congr_right ⟨fun ⟨h1, _, h3⟩ => ⟨h1, h3⟩, fun ⟨h1, h3⟩ => ⟨h1, by omega, h3⟩⟩
    · -- the jump at ip is dropped
      rw [Bool.and_eq_true, Bool.not_eq_true'] at hdrop
      have hcongr : ∀ k, ip ≤ k → jumpsToNext code (update removed ip true) k = jumpsToNext code removed k :=
        fun k hk => jumpsToNext_congr fun j hj => update_of_ne (by omega) _ _
      refine ih _ (fun k => ?_) (by omega) k
      by_cases hk : k = ip
      · subst hk
        have hzero : removed₀ k = false := by
          rw [Bool.eq_false_iff, ne_eq, ← hold, hdrop.1]
          simp
        rw [update_self, hcongr k le_rfl]
        exact ⟨fun _ => .inr ⟨not_lt.1 hstart, le_rfl, by omega, hzero, hdrop.2⟩, fun _ => rfl⟩
      · rw [update_of_ne hk, h k]
        refine or_congr_right (and_congr_right fun _ => ⟨fun ⟨hk, h⟩ => ⟨by omega, ?_⟩, fun ⟨hk, h⟩ => ⟨by omega, ?_⟩⟩)
        · rwa [hcongr k (by omega)]
        · rwa [hcongr k (by omega)] at h
    · refine ih removed (fun k => ?_) (by omega) k
      by_cases hk : k = ip
      · subst hk
        rw [hold]
        refine ⟨.inl, fun h => h.resolve_right ?_⟩
        rintro ⟨-, -, -, hzero, hnext⟩
        refine hdrop ?_
        rw [hnext, Bool.and_true, Bool.not_eq_true', Bool.eq_false_iff, ne_eq, hold, hzero]
        simp
      · rw [h k]
        exact or_congr_right ⟨fun ⟨h1, _, h3⟩ => ⟨h1, by omega, h3⟩, fun ⟨h1, _, h3⟩ => ⟨h1, by omega, h3⟩⟩

/-! ## Remapping -/

theorem remap_mono (removed : ℕ → Bool) (h : a ≤ b) : remap removed a ≤ remap removed b := by
  induction h with
  | refl => exact le_rfl
  | step _ ih =>
    exact ih.trans (Nat.le_add_right _ _)

theorem remap_succ_of_kept (h : removed ip = false) :
    remap removed (ip + 1) = remap removed ip + 1 := by rw [remap, h]; rfl

theorem remap_succ_of_removed (h : removed ip = true) :
    remap removed (ip + 1) = remap removed ip := by rw [remap, h]; rfl

theorem remap_eq_of_removed (hab : a ≤ b) (h : ∀ k, a ≤ k → k < b → removed k = true) :
    remap removed b = remap removed a := by
  induction hab with
  | refl => rfl
  | step hle ih =>
    rw [remap_succ_of_removed (h _ hle (Nat.lt_succ_self _)), ih fun k hk hk' => h k hk (by omega)]

theorem remap_lt_iff (h : removed ip = false) : remap removed ip < remap removed other ↔ ip < other := by
  constructor
  · intro hlt
    by_contra hge
    exact absurd (remap_mono removed (not_lt.1 hge)) (by omega)
  · intro hlt
    have := remap_mono removed (Nat.succ_le_of_lt hlt)
    rw [remap_succ_of_kept h] at this
    omega

theorem length_keptCode : ∀ n ≤ code.length, (keptCode code removed f n).length = remap removed n := by
  intro n
  induction n with
  | zero => intro _; rfl
  | succ n ih =>
    intro hn
    rw [keptCode, length_append, ih (by omega), remap]
    cases removed n with
    | true => rfl
    | false =>
      rw [getElem?_eq_getElem (by omega)]
      rfl

theorem keptCode_getElem? (hkept : removed ip = false) :
    ∀ n ≤ code.length, ip < n → (keptCode code removed f n)[remap removed ip]? = code[ip]?.map (Instr.retarget f) := by
  intro n
  induction n with
  | zero => exact nofun
  | succ n ih =>
    intro hn hip
    have hlen : (keptCode code removed f n).length = remap removed n := length_keptCode n (by omega)
    rw [keptCode]
    by_cases heq : ip = n
    · subst heq
      rw [getElem?_append_right (by omega), hlen, Nat.sub_self, hkept, getElem?_eq_getElem (show ip < code.length by omega)]
      rfl
    · have hlt : remap removed ip < remap removed n := (remap_lt_iff hkept).2 (by omega)
      rw [getElem?_append_left (by omega), ih (by omega) (by omega)]

theorem exists_kept (h : j < remap removed n) : ∃ ip < n, removed ip = false ∧ remap removed ip = j := by
  induction n generalizing j with
  | zero => cases h
  | succ n ih =>
    rw [remap] at h
    by_cases hj : j < remap removed n
    · obtain ⟨ip, hip, hk, hr⟩ := ih hj
      exact ⟨ip, by omega, hk, hr⟩
    cases hr : removed n with
    | true => rw [hr] at h; exact absurd h (by simpa using hj)
    | false =>
      rw [hr] at h
      exact ⟨n, Nat.lt_succ_self n, hr, by simp at h; omega⟩

end Maligator.Loader
