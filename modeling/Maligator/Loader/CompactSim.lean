/-
Jump compaction preserves interpretation.

Two simulations, each in both directions. Threading keeps every instruction in its place, so the threaded code runs ahead
of the original along a chain of forward jumps (`Ahead`). Removal renumbers: an instruction pointer and its image under the
map correspond unless it is at an absorbed jump, where the result still waits at the branch (`Corresponds`).

`compact_jumps_preserves`: from corresponding instruction pointers the two functions have the same runs of events, which
hold every instruction with its registers, its source position and the handler a throw would reach, and every poll. That
is so exactly when the handler that the search picks for an operation has the smallest range also without the superfluous
jumps (`Undisturbed`): two nested ranges can become equal when the jumps between their ends go, and then the table's order
decides.
-/
import Mathlib.Order.Interval.Finset.Nat
import Maligator.Lib.LabelledRun
import Maligator.Loader.Compact

namespace Maligator.Loader

open List

variable {Op Regs : Type}

/-! ## Functions as the loader has them -/

/-- every instruction pointer is in range, and the snapshot prefix holds argument loads only -/
structure MalFunction.Valid (fn : MalFunction Op) : Prop where
  targets : ∀ instr ∈ fn.instructions, ∀ target ∈ instr.target?, target ≤ fn.instructions.length
  handlers : ∀ handler ∈ fn.handlers, handler.startIp ≤ fn.instructions.length ∧ handler.endIp ≤ fn.instructions.length ∧
    handler.handlerIp ≤ fn.instructions.length
  positions : ∀ entry ∈ fn.positions, entry.startIp ≤ fn.instructions.length
  safepoints : ∀ row ∈ fn.gcSafepoints, row.ip < fn.instructions.length
  prefix_le : fn.argumentSnapshotCount ≤ fn.instructions.length
  prefix_loads : ∀ ip < fn.argumentSnapshotCount, ∃ operation, fn.instructions[ip]? = some (.op operation)

/-! ## Threading -/

def Chain (code : List (Instr Op)) : ℕ → ℕ → Prop :=
  Relation.ReflTransGen fun a b => code[a]? = some (.jump b) ∧ a < b

theorem forwardJumpEnd_chain (code : List (Instr Op)) (fuel target : ℕ) :
    Chain code target (forwardJumpEnd code fuel target) := by
  induction fuel generalizing target with
  | zero => exact .refl
  | succ fuel ih =>
    rw [forwardJumpEnd]
    split
    · next next hcode =>
      split_ifs with hlt
      · exact .head ⟨hcode, hlt⟩ (ih next)
      · exact .refl
    · exact .refl

theorem forwardJumpEnd_end (code : List (Instr Op)) (fuel target : ℕ) (hfuel : code.length ≤ target + fuel) (next : ℕ) :
    code[forwardJumpEnd code fuel target]? = some (.jump next) → next ≤ forwardJumpEnd code fuel target := by
  induction fuel generalizing target with
  | zero =>
    rw [forwardJumpEnd, getElem?_eq_none (by omega)]
    intro h
    cases h
  | succ fuel ih =>
    rw [forwardJumpEnd]
    split
    · next first hcode =>
      split_ifs with hlt
      · exact ih first (by omega)
      · rw [hcode]
        rintro ⟨⟩
        omega
    · next hno => exact fun h => (hno next h).elim

variable {a b k target j kept : ℕ} {handler other : Handler} {s t t' s' : State Regs}

theorem Chain.le {code : List (Instr Op)} (h : Chain code a b) : a ≤ b := by
  induction h with
  | refl => exact le_rfl
  | tail _ hstep ih => exact ih.trans hstep.2.le

variable {fn : MalFunction Op} {machine : Machine Op Regs}

section

variable (code : List (Instr Op)) (ip target : ℕ)

theorem Chain.le_length (hvalid : fn.Valid) (h : Chain fn.instructions a b)
    (ha : a ≤ fn.instructions.length) : b ≤ fn.instructions.length := by
  induction h with
  | refl => exact ha
  | tail _ hstep _ => exact hvalid.targets _ (mem_of_getElem? hstep.1) _ rfl

def threadTarget : ℕ :=
  if target > ip then forwardJumpEnd code code.length target else target

theorem threadTarget_chain : Chain code target (threadTarget code ip target) := by
  unfold threadTarget
  split_ifs
  · exact forwardJumpEnd_chain code _ _
  · exact .refl

theorem threadTarget_lt : threadTarget code ip target < ip + 1 ↔ target < ip + 1 := by
  unfold threadTarget
  split_ifs with h
  · have := (forwardJumpEnd_chain code code.length target).le
    omega
  · rfl

theorem thread_jump (h : (thread code)[ip]? = some (.jump target)) :
    ∃ first, code[ip]? = some (.jump first) ∧ target = threadTarget code ip first := by
  rw [thread_getElem?] at h
  obtain ⟨first | _ | _, hfirst, heq⟩ := Option.map_eq_some_iff.1 h <;> cases heq
  exact ⟨first, hfirst, rfl⟩

theorem poll_threadTarget : (pollIf (decide (threadTarget code ip target < ip + 1)) : List (Event Op Regs)) =
    pollIf (decide (target < ip + 1)) := by
  rw [decide_eq_decide.2 (threadTarget_lt code ip target)]

end

def threaded (fn : MalFunction Op) : MalFunction Op := { fn with instructions := thread fn.instructions }

theorem chain_run (h : Chain fn.instructions a b) (registers : Regs) :
    Run (Step machine fn) (.running a registers) [] (.running b registers) := by
  induction h with
  | refl => exact .refl _
  | tail _ hstep ih =>
    have hjump : Step machine fn (.running _ registers) (pollIf (decide _)) (.running _ registers) := .jump hstep.1
    rw [decide_eq_false (by omega)] at hjump
    exact ih.trans (.single hjump)

/-- the threaded function is ahead of the original by a chain -/
inductive Ahead (fn : MalFunction Op) : State Regs → State Regs → Prop
  | running {ip ip' : ℕ} {registers : Regs} (chain : Chain fn.instructions ip ip') : Ahead fn (.running ip registers) (.running ip' registers)
  | halted : Ahead fn .halted .halted

theorem Ahead.refl (fn : MalFunction Op) (s : State Regs) : Ahead fn s s := by
  cases s with
  | running ip registers => exact .running .refl
  | halted => exact .halted

theorem threaded_step (s t : State Regs) (labels : List (Event Op Regs))
    (s' : State Regs) (hr : Ahead fn s t) (hstep : Step machine fn s labels s') :
    ∃ t', Run (Step machine (threaded fn)) t labels t' ∧ Ahead fn s' t' := by
  cases hr with
  | halted => cases hstep
  | @running ip ip' registers chain =>
    rcases Relation.ReflTransGen.cases_head chain with rfl | ⟨next, ⟨hcode, hlt⟩, hrest⟩
    · -- both are at the same instruction
      have hget := thread_getElem? fn.instructions ip
      cases hstep with
      | jump code =>
        rw [code] at hget
        rw [← poll_threadTarget fn.instructions]
        exact ⟨_, .single (.jump hget), .running (threadTarget_chain _ _ _)⟩
      | taken code taken =>
        rw [code] at hget
        rw [← poll_threadTarget fn.instructions]
        exact ⟨_, .single (.taken hget taken), .running (threadTarget_chain _ _ _)⟩
      | untaken code untaken =>
        rw [code] at hget
        exact ⟨_, .single (.untaken hget untaken), .running .refl⟩
      | operation code =>
        rw [code] at hget
        exact ⟨_, .single (.operation hget), Ahead.refl fn _⟩
    · -- the original takes a forward jump of the chain
      cases hstep with
      | jump code =>
        rw [hcode] at code
        cases code
        rw [decide_eq_false (by omega)]
        exact ⟨_, .refl _, .running hrest⟩
      | taken code | untaken code | operation code => rw [hcode] at code; cases code

theorem threaded_back (t s : State Regs) (labels : List (Event Op Regs))
    (t' : State Regs) (hr : t = s) (hstep : Step machine (threaded fn) t labels t') :
    ∃ s', Run (Step machine fn) s labels s' ∧ t' = s' := by
  subst hr
  refine ⟨t', ?_, rfl⟩
  have hget : ∀ {ip : ℕ} {instr : Instr Op}, (threaded fn).instructions[ip]? = some instr →
      ∃ before, fn.instructions[ip]? = some before ∧ threadAt fn.instructions ip before = instr := by
    intro ip instr h
    rw [threaded, thread_getElem?] at h
    exact Option.map_eq_some_iff.1 h
  cases hstep with
  | @jump ip target registers code =>
    obtain ⟨first | _ | _, hcode, heq⟩ := hget code <;> cases heq
    have hrun : Run (Step machine fn) _ _ _ :=
      (Run.single (.jump hcode)).trans (chain_run (threadTarget_chain fn.instructions ip first) registers)
    rwa [append_nil, ← poll_threadTarget fn.instructions] at hrun
  | @taken ip cond target negate registers code taken =>
    obtain ⟨_ | ⟨_, _, first⟩ | _, hcode, heq⟩ := hget code <;> cases heq
    have hrun : Run (Step machine fn) _ _ _ :=
      (Run.single (.taken hcode taken)).trans (chain_run (threadTarget_chain fn.instructions ip first) registers)
    rwa [append_nil, ← poll_threadTarget fn.instructions] at hrun
  | untaken code untaken =>
    obtain ⟨_ | _ | _, hcode, heq⟩ := hget code <;> cases heq
    exact .single (.untaken hcode untaken)
  | operation code =>
    obtain ⟨_ | _ | _, hcode, heq⟩ := hget code <;> cases heq
    exact .single (.operation hcode)

/-! ## What is removed -/

section Removal

def targeted (fn : MalFunction Op) : ℕ → Bool := isTargeted (thread fn.instructions) fn.handlers

def takesOver (fn : MalFunction Op) (ip : ℕ) : Prop :=
  fn.argumentSnapshotCount ≤ ip ∧ absorbs (thread fn.instructions) (targeted fn) ip = true

instance (fn : MalFunction Op) (ip : ℕ) : Decidable (takesOver fn ip) := inferInstanceAs (Decidable (_ ∧ _))

def absorbed (fn : MalFunction Op) (ip : ℕ) : Bool := (inverted fn).2 ip

/-- A jump that nothing needs: one that a branch skips and nothing targets, or a forward jump with nothing but such jumps
between it and the end of its chain. -/
inductive Superfluous (fn : MalFunction Op) : ℕ → Prop
  | skipped {ip : ℕ} (take : takesOver fn ip) : Superfluous fn (ip + 1)
  | next {ip target : ℕ} (behind : fn.argumentSnapshotCount ≤ ip)
    (code : (thread fn.instructions)[ip]? = some (.jump target)) (forward : ip < target)
    (between : ∀ k, ip < k → k < target → Superfluous fn k) : Superfluous fn ip

/-- the instructions of a range without the superfluous jumps -/
noncomputable def neededSize (fn : MalFunction Op) (handler : Handler) : ℕ :=
  open Classical in {ip ∈ Finset.Ico handler.startIp handler.endIp | ¬Superfluous fn ip}.card

/-- an entry of the handler table, by its index, around an instruction -/
def Around (fn : MalFunction Op) (ip : ℕ) (entry : ℕ × Handler) : Prop :=
  fn.handlers[entry.1]? = some entry.2 ∧ entry.2.covers ip = true

/-- an entry is smaller than another, or as small and not behind it -/
def Precedes (size : Handler → ℕ) (entry other : ℕ × Handler) : Prop :=
  size entry.2 < size other.2 ∨ size entry.2 = size other.2 ∧ entry.1 ≤ other.1

/-- the handler that an operation has is the first smallest one also when superfluous jumps do not count -/
def Undisturbed (fn : MalFunction Op) : Prop :=
  ∀ ip operation, fn.instructions[ip]? = some (.op operation) → ∀ chosen, innermost fn ip = some chosen →
    ∀ other, Around fn ip other → Precedes (neededSize fn) chosen other

theorem inverted_spec :
    (∀ k, (inverted fn).1[k]? = if takesOver fn k then invertBranch (thread fn.instructions) k else (thread fn.instructions)[k]?) ∧
      ∀ x, absorbed fn x = true ↔ ∃ k, x = k + 1 ∧ takesOver fn k := by
  have h : Inverts (thread fn.instructions) (takesOver fn) (inverted fn).1 (absorbed fn) := by
    refine invertLoop_spec _ _ _ _ rfl le_rfl (by omega) ⟨fun k hk => by omega, fun _ _ => rfl, fun x => ?_⟩
    simp only [Bool.false_eq_true, false_iff]
    omega
  refine ⟨fun k => ?_, h.removed⟩
  split_ifs with hk
  · exact h.negated k hk
  · exact h.other k hk

theorem length_invertLoop {targeted : ℕ → Bool} (fuel ip : ℕ) (code : List (Instr Op)) (removed : ℕ → Bool) :
    (invertLoop targeted fuel ip code removed).1.length = code.length := by
  induction fuel generalizing ip code removed with
  | zero => rfl
  | succ fuel ih =>
    rw [invertLoop]
    split_ifs
    · rw [ih]
      split
      · rw [length_set]
      · rfl
    · rw [ih]
    · rfl

@[simp] theorem length_inverted (fn : MalFunction Op) : (inverted fn).1.length = fn.instructions.length :=
  (length_invertLoop ..).trans (length_thread _)

theorem removed_spec (k : ℕ) : removedJumps fn k = true ↔ absorbed fn k = true ∨
    fn.argumentSnapshotCount ≤ k ∧ k < fn.instructions.length ∧ absorbed fn k = false ∧
      jumpsToNext (inverted fn).1 (removedJumps fn) k = true := by
  rw [← length_inverted fn]
  refine dropLoop_spec fn.instructions.length (absorbed fn) (fun k => ⟨.inl, fun h => h.resolve_right ?_⟩)
    (by rw [length_inverted]) k
  rintro ⟨-, hge, hlt, -⟩
  rw [length_inverted] at hlt
  omega

theorem takesOver_iff : takesOver fn k ↔ fn.argumentSnapshotCount ≤ k ∧ ∃ cond negate far,
    (thread fn.instructions)[k]? = some (.jumpIf cond negate (k + 2)) ∧ (thread fn.instructions)[k + 1]? = some (.jump far) ∧
      targeted fn (k + 1) = false := by
  rw [takesOver, absorbs_iff]

variable {ip : ℕ}

theorem not_absorbed_of_targeted (h : targeted fn ip = true) : absorbed fn ip = false := by
  rw [Bool.eq_false_iff, ne_eq, inverted_spec.2]
  rintro ⟨k, rfl, hk⟩
  obtain ⟨-, _, _, _, -, -, hno⟩ := takesOver_iff.1 hk
  rw [h] at hno
  cases hno

theorem succ_ok (h : ¬takesOver fn ip) : absorbed fn (ip + 1) = false := by
  rw [Bool.eq_false_iff, ne_eq, inverted_spec.2]
  rintro ⟨k, hk, htake⟩
  obtain rfl : k = ip := by omega
  exact h htake

theorem prefix_kept (h : ip < fn.argumentSnapshotCount) : removedJumps fn ip = false := by
  apply Bool.eq_false_iff.2
  rw [ne_eq, removed_spec, inverted_spec.2]
  rintro (⟨k, rfl, htake, -⟩ | ⟨hge, -⟩)
  · omega
  · omega

section

variable (hvalid : fn.Valid)
include hvalid

theorem target_ok {instr : Instr Op} (hcode : (thread fn.instructions)[ip]? = some instr)
    (htarget : instr.target? = some target) : target ≤ fn.instructions.length ∧ absorbed fn target = false := by
  refine ⟨?_, not_absorbed_of_targeted ?_⟩
  · rw [thread_getElem?] at hcode
    obtain ⟨before, hbefore, heq⟩ := Option.map_eq_some_iff.1 hcode
    have hmem := mem_of_getElem? hbefore
    cases before with
    | jump first | jumpIf c n first =>
      cases heq
      cases htarget
      exact (threadTarget_chain fn.instructions ip first).le_length hvalid (hvalid.targets _ hmem _ rfl)
    | op operation =>
      cases heq
      cases htarget
  · rw [targeted, isTargeted, Bool.or_eq_true]
    exact .inl (any_eq_true.2 ⟨instr, mem_of_getElem? hcode, decide_eq_true htarget⟩)

theorem handler_ok (h : handler ∈ fn.handlers) :
    handler.handlerIp ≤ fn.instructions.length ∧ absorbed fn handler.handlerIp = false := by
  refine ⟨(hvalid.handlers handler h).2.2, not_absorbed_of_targeted ?_⟩
  rw [targeted, isTargeted, Bool.or_eq_true]
  exact .inr (any_eq_true.2 ⟨handler, h, decide_eq_true rfl⟩)

theorem takesOver_code (h : takesOver fn ip) : ∃ cond negate far,
    (thread fn.instructions)[ip]? = some (.jumpIf cond negate (ip + 2)) ∧
      (thread fn.instructions)[ip + 1]? = some (.jump far) ∧
      (inverted fn).1[ip]? = some (.jumpIf cond (!negate) far) ∧ removedJumps fn ip = false ∧
      removedJumps fn (ip + 1) = true ∧ far ≠ ip + 1 := by
  obtain ⟨-, cond, negate, far, hbranch, hjump, hno⟩ := takesOver_iff.1 h
  have hcode : (inverted fn).1[ip]? = some (.jumpIf cond (!negate) far) := by
    rw [inverted_spec.1, if_pos h, invertBranch, hbranch, hjump]
  refine ⟨cond, negate, far, hbranch, hjump, hcode, ?_, ?_, ?_⟩
  · rw [Bool.eq_false_iff, ne_eq, removed_spec, inverted_spec.2]
    rintro (⟨k, rfl, hk⟩ | ⟨-, -, -, hnext⟩)
    · obtain ⟨-, _, _, _, -, hj, -⟩ := takesOver_iff.1 hk
      rw [hbranch] at hj
      cases hj
    · rw [jumpsToNext, hcode] at hnext
      cases hnext
  · rw [removed_spec, inverted_spec.2]
    exact .inl ⟨ip, rfl, h⟩
  · rintro rfl
    have habs := (inverted_spec.2 (ip + 1)).2 ⟨ip, rfl, h⟩
    rw [(target_ok hvalid hjump rfl).2] at habs
    cases habs

theorem dropped_code (hremoved : removedJumps fn ip = true) (habs : absorbed fn ip = false) :
    ∃ target, (thread fn.instructions)[ip]? = some (.jump target) ∧ ip < target ∧ target ≤ fn.instructions.length ∧
      remap (removedJumps fn) target = remap (removedJumps fn) ip ∧
      (target < fn.instructions.length → removedJumps fn target = false) := by
  obtain ⟨-, hlt, -, hnext⟩ := (removed_spec ip).1 hremoved |>.resolve_left (by rw [habs]; simp)
  unfold jumpsToNext at hnext
  split at hnext
  · next target hcode =>
    rw [Bool.and_eq_true, decide_eq_true_eq, decide_eq_true_eq, length_inverted] at hnext
    have hspec := @nextKept_spec (removedJumps fn) fn.instructions.length fn.instructions.length (ip + 1) (by omega) (by omega)
    rw [← hnext.2] at hspec
    obtain ⟨hge, hle, hbetween, hend⟩ := hspec
    refine ⟨target, ?_, hnext.1, hle, ?_, hend⟩
    · rw [inverted_spec.1] at hcode
      split_ifs at hcode with htake
      · obtain ⟨cond, negate, far, hb, hj, -⟩ := takesOver_code hvalid htake
        rw [invertBranch, hb, hj] at hcode
        cases hcode
      · exact hcode
    · refine remap_eq_of_removed (by omega) fun k hk hk' => ?_
      by_cases heq : k = ip
      · rw [heq, hremoved]
      · exact hbetween k (by omega) hk'
  · cases hnext

theorem target_kept (hcode : (thread fn.instructions)[ip]? = some (.jump target)) (hlt : ip < target) :
    removedJumps fn target = false := by
  by_contra hremoved
  obtain ⟨next, hjump, hforward, -⟩ := dropped_code hvalid (Bool.not_eq_false _ ▸ hremoved) (target_ok hvalid hcode rfl).2
  -- the chain ends at the target, so no forward jump is there
  obtain ⟨first, -, htarget⟩ := thread_jump _ _ _ hcode
  obtain ⟨second, hsecond, hnext⟩ := thread_jump _ _ _ hjump
  have h1 := threadTarget_lt fn.instructions ip first
  have h2 := threadTarget_lt fn.instructions target second
  have hend := forwardJumpEnd_end fn.instructions fn.instructions.length first (by omega) second
  rw [← htarget] at h1
  rw [← hnext] at h2
  rw [threadTarget, if_pos (show first > ip by omega)] at htarget
  rw [← htarget] at hend
  have := hend hsecond
  omega

/-- **The removed instructions** are the superfluous jumps. -/
theorem removed_iff_superfluous : removedJumps fn ip = true ↔ Superfluous fn ip := by
  constructor
  · intro hremoved
    induction hn : fn.instructions.length - ip using Nat.strong_induction_on generalizing ip with
    | _ n ih =>
      cases habs : absorbed fn ip with
      | true =>
        obtain ⟨k, rfl, htake⟩ := (inverted_spec.2 ip).1 habs
        exact .skipped htake
      | false =>
        obtain ⟨target, hcode, hlt, hle, hmap, -⟩ := dropped_code hvalid hremoved habs
        refine .next (not_lt.1 fun h => ?_) hcode hlt fun k hk hk' => ih _ (by omega) ?_ rfl
        · rw [prefix_kept h] at hremoved
          cases hremoved
        · by_contra hkept
          have := (remap_lt_iff (Bool.eq_false_iff.2 hkept)).2 hk'
          have := remap_mono (removedJumps fn) hk.le
          omega
  · intro h
    induction h with
    | skipped htake =>
      obtain ⟨_, _, _, -, -, -, -, hremoved, -⟩ := takesOver_code hvalid htake
      exact hremoved
    | @next ip target hstart hcode hlt _ ih =>
      have hlen : ip < fn.instructions.length := by
        have := (List.getElem?_eq_some_iff.1 hcode).1
        rwa [length_thread] at this
      rw [removed_spec]
      cases habs : absorbed fn ip with
      | true => exact .inl rfl
      | false =>
        have hplain : ¬takesOver fn ip := fun htake => by
          obtain ⟨-, _, _, _, hbranch, -⟩ := takesOver_iff.1 htake
          rw [hcode] at hbranch
          cases hbranch
        obtain ⟨hge, hle, hgone, hend⟩ :=
          @nextKept_spec (removedJumps fn) fn.instructions.length fn.instructions.length (ip + 1) (by omega) (by omega)
        have htarget := (target_ok hvalid hcode rfl).1
        have hkept := target_kept hvalid hcode hlt
        refine .inr ⟨hstart, hlen, rfl, ?_⟩
        rw [jumpsToNext, inverted_spec.1, if_neg hplain, hcode, length_inverted]
        simp only [Bool.and_eq_true, decide_eq_true_eq]
        refine ⟨hlt, le_antisymm (not_lt.1 fun h => ?_) (not_lt.1 fun h => ?_)⟩
        · rw [ih _ hge h] at hend
          exact absurd (hend (by omega)) (by simp)
        · rw [hgone target hlt h] at hkept
          cases hkept

end

end Removal

/-! ## The function that results -/

def renumbered (fn : MalFunction Op) : MalFunction Op :=
  let ipMap := remap (removedJumps fn)
  { instructions := keptCode (inverted fn).1 (removedJumps fn) ipMap fn.instructions.length
    handlers := fn.handlers.map (Handler.remap ipMap)
    positions := fn.positions.map fun entry => { entry with startIp := ipMap entry.startIp }
    gcSafepoints := (fn.gcSafepoints.filter fun row => !removedJumps fn row.ip).map fun row => { row with ip := ipMap row.ip }
    argumentSnapshotCount := ipMap fn.argumentSnapshotCount }

section Result

theorem remap_le (removed : ℕ → Bool) (n : ℕ) : remap removed n ≤ n := by
  induction n with
  | zero => exact le_rfl
  | succ n ih =>
    rw [remap]
    split_ifs
    · omega
    · omega

variable {removed : ℕ → Bool} {n ip : ℕ} {instr : Instr Op}

theorem kept_of_remap_eq : ∀ {n : ℕ}, remap removed n = n → ∀ k < n, removed k = false := by
  intro n
  induction n with
  | zero => exact nofun
  | succ n ih =>
    intro h k hk
    have hle := remap_le removed n
    rw [remap] at h
    split_ifs at h with hn
    · omega
    by_cases hkn : k = n
    · rw [hkn]
      exact Bool.eq_false_iff.2 hn
    · exact ih (by omega) k (by omega)

theorem remap_eq_self (h : ∀ k < n, removed k = false) : remap removed n = n := by
  induction n with
  | zero => rfl
  | succ n ih => rw [remap_succ_of_kept (h n (Nat.lt_succ_self n)), ih fun k hk => h k (by omega)]

theorem retarget_eq_self {f : ℕ → ℕ} (h : ∀ target, instr.target? = some target → f target = target) :
    instr.retarget f = instr := by
  cases instr with
  | jump target | jumpIf cond negate target => rw [Instr.retarget, h target rfl]
  | op operation => rfl

theorem inverted_target_le (hvalid : fn.Valid) (hcode : (inverted fn).1[ip]? = some instr)
    (htarget : instr.target? = some target) : target ≤ fn.instructions.length := by
  by_cases htake : takesOver fn ip
  · obtain ⟨cond, negate, far, -, hjump, hinv, -⟩ := takesOver_code hvalid htake
    rw [hinv] at hcode
    cases hcode
    cases htarget
    exact (target_ok hvalid hjump rfl).1
  · rw [inverted_spec.1, if_neg htake] at hcode
    exact (target_ok hvalid hcode htarget).1

theorem compactJumps_eq (hvalid : fn.Valid) (hcount : ¬fn.instructions.length < 2) : compactJumps fn = renumbered fn := by
  unfold compactJumps
  dsimp only
  split_ifs with hnone
  · have hkept := kept_of_remap_eq hnone
    have hsame : ∀ ip ≤ fn.instructions.length, remap (removedJumps fn) ip = ip :=
      fun ip hip => remap_eq_self fun k hk => hkept k (by omega)
    have hcode : keptCode (inverted fn).1 (removedJumps fn) (remap (removedJumps fn)) fn.instructions.length = (inverted fn).1 := by
      refine ext_getElem? fun k => ?_
      by_cases hk : k < fn.instructions.length
      · have hget := keptCode_getElem? (f := remap (removedJumps fn)) (hkept k hk) fn.instructions.length
          (length_inverted fn).ge hk
        rw [hsame k hk.le] at hget
        rw [hget]
        cases hinstr : (inverted fn).1[k]? with
        | none => rfl
        | some instr =>
          rw [Option.map_some, retarget_eq_self fun target ht => hsame target (inverted_target_le hvalid hinstr ht)]
      · rw [getElem?_eq_none, getElem?_eq_none]
        · rw [length_inverted]
          omega
        · rw [length_keptCode _ (length_inverted fn).ge]
          omega
    have hhandlers : fn.handlers.map (Handler.remap (remap (removedJumps fn))) = fn.handlers := by
      refine (map_congr_left fun handler h => ?_).trans (map_id _)
      obtain ⟨h1, h2, h3⟩ := hvalid.handlers handler h
      rw [Handler.remap, hsame _ h1, hsame _ h2, hsame _ h3]
      rfl
    have hpositions : (fn.positions.map fun entry => { entry with startIp := remap (removedJumps fn) entry.startIp }) =
        fn.positions := by
      refine (map_congr_left fun entry h => ?_).trans (map_id _)
      rw [hsame _ (hvalid.positions entry h)]
      rfl
    have hsafepoints : ((fn.gcSafepoints.filter fun row => !removedJumps fn row.ip).map fun row =>
        { row with ip := remap (removedJumps fn) row.ip }) = fn.gcSafepoints := by
      rw [filter_eq_self.2 fun row h => by rw [hkept _ (hvalid.safepoints row h)]; rfl]
      refine (map_congr_left fun row h => ?_).trans (map_id _)
      rw [hsame _ (hvalid.safepoints row h).le]
      rfl
    unfold renumbered
    dsimp only
    rw [hcode, hhandlers, hpositions, hsafepoints, hsame _ hvalid.prefix_le]
  · rfl

def ipMap (fn : MalFunction Op) : ℕ → ℕ := if fn.instructions.length < 2 then id else remap (removedJumps fn)

theorem renumbered_code (hlt : ip < fn.instructions.length) (hkept : removedJumps fn ip = false) :
    (renumbered fn).instructions[remap (removedJumps fn) ip]? =
      (inverted fn).1[ip]?.map (Instr.retarget (remap (removedJumps fn))) :=
  keptCode_getElem? hkept _ (length_inverted fn).ge hlt

/-- **The snapshot prefix** stays as it is. -/
theorem prefix_unchanged (hvalid : fn.Valid) : (compactJumps fn).argumentSnapshotCount = fn.argumentSnapshotCount ∧
    ∀ ip < fn.argumentSnapshotCount, (compactJumps fn).instructions[ip]? = fn.instructions[ip]? := by
  by_cases hcount : fn.instructions.length < 2
  · rw [compactJumps, if_pos hcount]
    exact ⟨rfl, fun _ _ => rfl⟩
  rw [compactJumps_eq hvalid hcount]
  have hsame : ∀ ip ≤ fn.argumentSnapshotCount, remap (removedJumps fn) ip = ip :=
    fun ip hip => remap_eq_self fun k hk => prefix_kept (by omega)
  refine ⟨hsame _ le_rfl, fun ip hip => ?_⟩
  have hcode := renumbered_code (hip.trans_le hvalid.prefix_le) (prefix_kept hip)
  obtain ⟨operation, hop⟩ := hvalid.prefix_loads ip hip
  rw [hsame ip hip.le, inverted_spec.1, if_neg fun h => by have := h.1; omega, thread_getElem?] at hcode
  rw [hcode, hop]
  rfl

end Result

/-! ## Handlers and positions -/

section Unwind

variable {removed : ℕ → Bool} {ip : ℕ}

theorem backward_iff (hkept : removed ip = false) (target : ℕ) :
    remap removed target < remap removed ip + 1 ↔ target < ip + 1 := by
  rw [Nat.lt_succ_iff, Nat.lt_succ_iff, ← not_lt, ← not_lt, remap_lt_iff hkept]

theorem covers_remap (hkept : removed ip = false) (handler : Handler) :
    (handler.remap (remap removed)).covers (remap removed ip) = handler.covers ip := by
  unfold Handler.covers Handler.remap
  rw [decide_eq_decide.2 (remap_lt_iff hkept)]
  congr 2
  rw [decide_eq_decide, ge_iff_le, ge_iff_le, ← not_lt, ← not_lt, remap_lt_iff hkept]

theorem Precedes.trans {size : Handler → ℕ} {x y z : ℕ × Handler} (h : Precedes size x y) (h' : Precedes size y z) :
    Precedes size x z := by
  unfold Precedes at *
  omega

/-- the entries that a search is about: the best so far, and those from index i on -/
def Candidate (ip : ℕ) (best : Option (ℕ × Handler)) (i : ℕ) (handlers : List Handler) (entry : ℕ × Handler) : Prop :=
  best = some entry ∨ (entry.2, entry.1) ∈ handlers.zipIdx i ∧ entry.2.covers ip = true

/-- the best entry after one more -/
def better (ip : ℕ) (best : Option (ℕ × Handler)) (i : ℕ) (handler : Handler) : Option (ℕ × Handler) :=
  if !handler.covers ip then best
  else if best.all fun other => handler.size < other.2.size then some (i, handler) else best

theorem innermostFrom_cons (ip : ℕ) (best : Option (ℕ × Handler)) (i : ℕ) (handler : Handler) (rest : List Handler) :
    innermostFrom ip best i (handler :: rest) = innermostFrom ip (better ip best i handler) (i + 1) rest := by
  cases best <;> simp [innermostFrom, better]

/-- the entry is taken if it is smaller than the best, and else the best is as small -/
theorem better_cases (handler : Handler) (best : Option (ℕ × Handler)) (i : ℕ) :
    (better ip best i handler = some (i, handler) ∧ handler.covers ip = true ∧
        ∀ other, best = some other → handler.size < other.2.size) ∨
      (better ip best i handler = best ∧
        (handler.covers ip = true → ∃ other, best = some other ∧ other.2.size ≤ handler.size)) := by
  unfold better
  split_ifs with hcovers hsmaller
  · exact .inr ⟨rfl, fun h => by simp [h] at hcovers⟩
  · exact .inl ⟨rfl, by simpa using hcovers, fun other hbest => by simpa [hbest] using hsmaller⟩
  · cases best with
    | none => simp at hsmaller
    | some other => exact .inr ⟨rfl, fun _ => ⟨other, rfl, by simpa using hsmaller⟩⟩

theorem better_spec (handler : Handler) (rest : List Handler) {best : Option (ℕ × Handler)} {i : ℕ}
    (hbest : ∀ entry, best = some entry → entry.1 < i) :
    (∀ entry, Candidate ip (better ip best i handler) (i + 1) rest entry → Candidate ip best i (handler :: rest) entry) ∧
      (∀ entry, Candidate ip best i (handler :: rest) entry → ∃ other,
        Candidate ip (better ip best i handler) (i + 1) rest other ∧ Precedes Handler.size other entry) ∧
      ∀ entry, better ip best i handler = some entry → entry.1 < i + 1 := by
  have hself : ∀ entry, Precedes Handler.size entry entry := fun entry => .inr ⟨rfl, le_rfl⟩
  rcases better_cases handler best i with ⟨heq, hcovers, hsmaller⟩ | ⟨heq, hkept⟩
  · rw [heq]
    refine ⟨fun entry h => ?_, fun entry h => ?_, fun entry h => ?_⟩
    · rcases h with h | ⟨h, hcov⟩
      · cases h
        exact .inr ⟨mem_cons_self, hcovers⟩
      · exact .inr ⟨mem_cons_of_mem _ h, hcov⟩
    · rcases h with h | ⟨h, hcov⟩
      · exact ⟨(i, handler), .inl rfl, .inl (hsmaller entry h)⟩
      · rcases mem_cons.1 h with hentry | h
        · cases hentry
          exact ⟨_, .inl rfl, hself _⟩
        · exact ⟨entry, .inr ⟨h, hcov⟩, hself entry⟩
    · cases h
      exact Nat.lt_succ_self i
  · rw [heq]
    refine ⟨fun entry => .imp id (.imp (mem_cons_of_mem _) id), fun entry h => ?_, fun entry h => (hbest entry h).trans (by omega)⟩
    rcases h with h | ⟨h, hcov⟩
    · exact ⟨entry, .inl h, hself entry⟩
    · rcases mem_cons.1 h with hentry | h
      · cases hentry
        obtain ⟨first, hfirst, hle⟩ := hkept hcov
        have hlt := hbest first hfirst
        refine ⟨first, .inl hfirst, ?_⟩
        unfold Precedes
        omega
      · exact ⟨entry, .inr ⟨h, hcov⟩, hself entry⟩

/-- **The search** finds the first smallest entry around an instruction. -/
theorem innermostFrom_spec (ip : ℕ) (handlers : List Handler) (best : Option (ℕ × Handler)) (i : ℕ)
    (hbest : ∀ entry, best = some entry → entry.1 < i) :
    (innermostFrom ip best i handlers = none → ∀ entry, ¬Candidate ip best i handlers entry) ∧
      ∀ found, innermostFrom ip best i handlers = some found → Candidate ip best i handlers found ∧
        ∀ entry, Candidate ip best i handlers entry → Precedes Handler.size found entry := by
  induction handlers generalizing best i with
  | nil =>
    simp only [innermostFrom, Candidate, zipIdx_nil, not_mem_nil, false_and, or_false]
    refine ⟨fun h entry => by simp [h], fun found hfound => ⟨hfound, fun entry hentry => ?_⟩⟩
    cases hfound.symm.trans hentry
    exact .inr ⟨rfl, le_rfl⟩
  | cons handler rest ih =>
    rw [innermostFrom_cons]
    obtain ⟨hsub, hcover, hindex⟩ := better_spec handler rest hbest
    obtain ⟨hnone, hsome⟩ := ih _ (i + 1) hindex
    refine ⟨fun h entry hentry => ?_, fun found hfound => ⟨hsub _ (hsome found hfound).1, fun entry hentry => ?_⟩⟩
    · obtain ⟨other, hother, -⟩ := hcover entry hentry
      exact hnone h other hother
    · obtain ⟨other, hother, hbefore⟩ := hcover entry hentry
      exact ((hsome found hfound).2 other hother).trans hbefore

variable {entry : ℕ × Handler}

theorem candidate_iff : Candidate ip none 0 fn.handlers entry ↔ Around fn ip entry := by
  simp only [Candidate, Around, mem_zipIdx_iff_getElem?, reduceCtorEq, false_or]

theorem innermost_iff : innermost fn ip = some entry ↔
    Around fn ip entry ∧ ∀ other, Around fn ip other → Precedes Handler.size entry other := by
  obtain ⟨hnone, hsome⟩ := innermostFrom_spec ip fn.handlers none 0 nofun
  simp only [candidate_iff] at hnone hsome
  refine ⟨hsome entry, fun ⟨haround, hfirst⟩ => ?_⟩
  cases hfound : innermost fn ip with
  | none => exact absurd haround (hnone hfound entry)
  | some found =>
    obtain ⟨haround', hfirst'⟩ := hsome found hfound
    have h1 := hfirst found haround'
    have h2 := hfirst' entry haround
    have hindex : found.1 = entry.1 := by unfold Precedes at h1 h2; omega
    have hhandler := haround'.1.symm.trans (hindex ▸ haround.1)
    rw [Prod.ext hindex (Option.some.inj hhandler)]

theorem exists_innermost (h : Around fn ip entry) : ∃ chosen, innermost fn ip = some chosen := by
  obtain ⟨hnone, -⟩ := innermostFrom_spec ip fn.handlers none 0 nofun
  simp only [candidate_iff] at hnone
  exact Option.ne_none_iff_exists'.1 fun hno => hnone hno entry h

theorem remap_add_card (removed : ℕ → Bool) (hab : a ≤ b) :
    remap removed b = remap removed a + {ip ∈ Finset.Ico a b | ¬removed ip = true}.card := by
  induction b, hab using Nat.le_induction with
  | base => simp
  | succ b hab ih =>
    rw [remap, ih, Nat.Ico_succ_right_eq_insert_Ico hab, Finset.filter_insert]
    split_ifs with hremoved
    · rfl
    · rw [Finset.card_insert_of_notMem (by simp), add_assoc]

/-- a remapped range has the instructions that are needed -/
theorem size_remap (hvalid : fn.Valid) (handler : Handler) :
    (handler.remap (remap (removedJumps fn))).size = neededSize fn handler := by
  classical
  have hfilter : neededSize fn handler =
      {ip ∈ Finset.Ico handler.startIp handler.endIp | ¬removedJumps fn ip = true}.card := by
    unfold neededSize
    congr 1
    exact Finset.filter_congr fun ip _ => by rw [removed_iff_superfluous hvalid]
  rw [hfilter, Handler.size, Handler.remap]
  rcases le_total handler.startIp handler.endIp with hle | hle
  · rw [remap_add_card _ hle]
    simp
  · rw [Finset.Ico_eq_empty (by omega), Finset.filter_empty, Finset.card_empty]
    exact Nat.sub_eq_zero_of_le (remap_mono _ hle)

theorem positionFor_remap (hkept : removed ip = false) (entries : List LineEntry) :
    positionFor (entries.map fun entry => { entry with startIp := remap removed entry.startIp }) (remap removed ip) =
      positionFor entries ip := by
  have hsame : ((fun entry : LineEntry => decide (entry.startIp ≤ remap removed ip)) ∘
      fun entry : LineEntry => { entry with startIp := remap removed entry.startIp }) = fun entry => decide (entry.startIp ≤ ip) := by
    funext entry
    rw [Function.comp_apply, decide_eq_decide, ← not_lt, ← not_lt, remap_lt_iff hkept]
  rw [positionFor, positionFor, takeWhile_map, hsame, getLast?_map]
  cases (entries.takeWhile fun entry => entry.startIp ≤ ip).getLast? with
  | none => rfl
  | some entry => rfl

end Unwind

/-! ## Removal and interpretation -/

/-- an instruction pointer that is not at an absorbed jump, and its image -/
inductive Aligned (fn : MalFunction Op) : State Regs → State Regs → Prop
  | running {ip : ℕ} {registers : Regs} (le : ip ≤ fn.instructions.length) (free : absorbed fn ip = false) :
    Aligned fn (.running ip registers) (.running (remap (removedJumps fn) ip) registers)
  | halted : Aligned fn .halted .halted

/-- aligned, or at an absorbed jump with the result still at the branch that took it over -/
inductive Corresponds (machine : Machine Op Regs) (fn : MalFunction Op) : State Regs → State Regs → Prop
  | aligned {s t : State Regs} (h : Aligned fn s t) : Corresponds machine fn s t
  | behind {ip cond : ℕ} {negate : Bool} {registers : Regs} (take : takesOver fn ip)
    (branch : (thread fn.instructions)[ip]? = some (.jumpIf cond negate (ip + 2)))
    (untaken : machine.truthy registers cond = negate) :
    Corresponds machine fn (.running (ip + 1) registers) (.running (remap (removedJumps fn) ip) registers)

theorem Step.deterministic
    {labels labels' : List (Event Op Regs)} (h : Step machine fn s labels t) (h' : Step machine fn s labels' t') :
    labels = labels' ∧ t = t' := by
  cases h with
  | jump code | operation code =>
    cases h' with
    | _ code' => rw [code] at code'; cases code' <;> exact ⟨rfl, rfl⟩
  | taken code taken =>
    cases h' with
    | untaken code' untaken => rw [code] at code'; cases code'; exact absurd untaken taken
    | _ code' => rw [code] at code'; cases code' <;> exact ⟨rfl, rfl⟩
  | untaken code untaken =>
    cases h' with
    | taken code' taken => rw [code] at code'; cases code'; exact absurd untaken taken
    | _ code' => rw [code] at code'; cases code' <;> exact ⟨rfl, rfl⟩

section Simulation

variable {ip : ℕ} {registers : Regs}

theorem around_renumbered (hkept : removedJumps fn ip = false) {entry : ℕ × Handler} :
    Around (renumbered fn) (remap (removedJumps fn) ip) entry ↔
      ∃ handler, Around fn ip (entry.1, handler) ∧ entry.2 = handler.remap (remap (removedJumps fn)) := by
  unfold Around
  simp only [renumbered, getElem?_map, Option.map_eq_some_iff]
  constructor
  · rintro ⟨⟨handler, hget, himage⟩, hcovers⟩
    rw [← himage, covers_remap hkept] at hcovers
    exact ⟨handler, ⟨hget, hcovers⟩, himage.symm⟩
  · rintro ⟨handler, ⟨hget, hcovers⟩, himage⟩
    exact ⟨⟨handler, hget, himage.symm⟩, by rw [himage, covers_remap hkept]; exact hcovers⟩

/-- **The result's search** picks the entry that is first by the sizes without the superfluous jumps. -/
theorem innermost_renumbered_iff (hvalid : fn.Valid) (hkept : removedJumps fn ip = false) {entry : ℕ × Handler}
    (haround : Around fn ip entry) :
    innermost (renumbered fn) (remap (removedJumps fn) ip) =
        some (Prod.map id (Handler.remap (remap (removedJumps fn))) entry) ↔
      ∀ other, Around fn ip other → Precedes (neededSize fn) entry other := by
  rw [innermost_iff, around_renumbered hkept]
  simp only [around_renumbered hkept]
  constructor
  · rintro ⟨-, hfirst⟩ other hother
    have h := hfirst (Prod.map id (Handler.remap (remap (removedJumps fn))) other) ⟨other.2, hother, rfl⟩
    simpa only [Precedes, Prod.map_snd, Prod.map_fst, id_eq, size_remap hvalid] using h
  · refine fun hfirst => ⟨⟨entry.2, haround, rfl⟩, ?_⟩
    rintro ⟨k, image⟩ ⟨handler, hother, rfl⟩
    simpa only [Precedes, Prod.map_snd, Prod.map_fst, id_eq, size_remap hvalid] using hfirst _ hother

theorem innermost_renumbered (hvalid : fn.Valid) (hkept : removedJumps fn ip = false)
    (hfirst : ∀ chosen, innermost fn ip = some chosen → ∀ other, Around fn ip other → Precedes (neededSize fn) chosen other) :
    innermost (renumbered fn) (remap (removedJumps fn) ip) =
      (innermost fn ip).map (Prod.map id (Handler.remap (remap (removedJumps fn)))) := by
  cases hchosen : innermost fn ip with
  | some chosen => exact (innermost_renumbered_iff hvalid hkept (innermost_iff.1 hchosen).1).2 (hfirst chosen hchosen)
  | none =>
    rw [Option.map_none, Option.eq_none_iff_forall_ne_some]
    intro found hfound
    obtain ⟨handler, hhandler, -⟩ := (around_renumbered hkept).1 (innermost_iff.1 hfound).1
    obtain ⟨chosen, hsome⟩ := exists_innermost hhandler
    rw [hchosen] at hsome
    cases hsome

/-- an operation stays, and takes no jump over -/
theorem operation_kept {operation : Op} (hvalid : fn.Valid) (hcode : fn.instructions[ip]? = some (.op operation)) :
    (thread fn.instructions)[ip]? = some (.op operation) ∧ removedJumps fn ip = false ∧ absorbed fn ip = false ∧
      ¬takesOver fn ip := by
  have hthread : (thread fn.instructions)[ip]? = some (.op operation) := by rw [thread_getElem?, hcode]; rfl
  have hfree : absorbed fn ip = false := by
    rw [Bool.eq_false_iff, ne_eq, inverted_spec.2]
    rintro ⟨k, rfl, htake⟩
    obtain ⟨-, _, _, _, -, hjump, -⟩ := takesOver_iff.1 htake
    rw [hthread] at hjump
    cases hjump
  refine ⟨hthread, ?_, hfree, fun htake => ?_⟩
  · by_contra hremoved
    obtain ⟨target, hjump, -⟩ := dropped_code hvalid (Bool.not_eq_false _ ▸ hremoved) hfree
    rw [hthread] at hjump
    cases hjump
  · obtain ⟨-, _, _, _, hbranch, -⟩ := takesOver_iff.1 htake
    rw [hthread] at hbranch
    cases hbranch

section

variable (hvalid : fn.Valid) (hinner : Undisturbed fn) (hlt : ip < fn.instructions.length)
  (hkept : removedJumps fn ip = false) (hplain : ¬takesOver fn ip)
include hvalid hinner hlt hkept hplain

omit hlt hplain in
theorem innermost_operation {operation : Op} (hcode : (thread fn.instructions)[ip]? = some (.op operation)) :
    innermost (renumbered fn) (remap (removedJumps fn) ip) =
      (innermost (threaded fn) ip).map (Prod.map id (Handler.remap (remap (removedJumps fn)))) := by
  rw [thread_getElem?] at hcode
  obtain ⟨_ | _ | _, hop, heq⟩ := Option.map_eq_some_iff.1 hcode <;> cases heq
  exact innermost_renumbered hvalid hkept fun chosen => hinner ip _ hop chosen

theorem afterOperation_aligned {operation : Op} (hcode : (thread fn.instructions)[ip]? = some (.op operation))
    (outcome : Outcome Regs) : Aligned fn (afterOperation (threaded fn) ip outcome)
      (afterOperation (renumbered fn) (remap (removedJumps fn) ip) outcome) := by
  cases outcome with
  | next registers =>
    rw [afterOperation, afterOperation, ← remap_succ_of_kept hkept]
    exact .running hlt (succ_ok hplain)
  | throws registers =>
    rw [afterOperation, afterOperation, innermost_operation hvalid hinner hkept hcode]
    cases hfound : innermost (threaded fn) ip with
    | none => exact .halted
    | some found =>
      obtain ⟨hle, hfree⟩ := handler_ok hvalid (mem_of_getElem? (innermost_iff.1 hfound).1.1)
      exact .running hle hfree
  | leaves => exact .halted

/-- **A kept instruction** that takes no jump over does the same on both sides. -/
theorem plain_progress (registers : Regs) : ∃ labels s' t',
      Step machine (threaded fn) (.running ip registers) labels s' ∧
      Step machine (renumbered fn) (.running (remap (removedJumps fn) ip) registers) labels t' ∧ Aligned fn s' t' := by
  have hcode := renumbered_code hlt hkept
  rw [inverted_spec.1, if_neg hplain] at hcode
  obtain ⟨instr, hinstr⟩ : ∃ instr, (thread fn.instructions)[ip]? = some instr :=
    ⟨_, getElem?_eq_getElem (by rw [length_thread]; exact hlt)⟩
  rw [hinstr] at hcode
  have hpoll : ∀ target, (pollIf (decide (remap (removedJumps fn) target < remap (removedJumps fn) ip + 1)) :
      List (Event Op Regs)) = pollIf (decide (target < ip + 1)) := fun target => by
    rw [decide_eq_decide.2 (backward_iff hkept target)]
  cases instr with
  | jump target =>
    obtain ⟨hle, hfree⟩ := target_ok hvalid hinstr rfl
    exact ⟨_, _, _, .jump hinstr, hpoll target ▸ .jump hcode, .running hle hfree⟩
  | jumpIf cond negate target =>
    by_cases htruthy : machine.truthy registers cond = negate
    · refine ⟨_, _, _, .untaken hinstr htruthy, .untaken hcode htruthy, ?_⟩
      rw [← remap_succ_of_kept hkept]
      exact .running hlt (succ_ok hplain)
    · obtain ⟨hle, hfree⟩ := target_ok hvalid hinstr rfl
      exact ⟨_, _, _, .taken hinstr htruthy, hpoll target ▸ .taken hcode htruthy, .running hle hfree⟩
  | op operation =>
    refine ⟨_, _, _, .operation hinstr, ?_, afterOperation_aligned hvalid hinner hlt hkept hplain hinstr _⟩
    have hstep : Step machine (renumbered fn) (.running (remap (removedJumps fn) ip) registers) _ _ := .operation hcode
    have hhandler : (innermost (renumbered fn) (remap (removedJumps fn) ip)).map Prod.fst =
        (innermost (threaded fn) ip).map Prod.fst := by
      rw [innermost_operation hvalid hinner hkept hinstr, Option.map_map]
      rfl
    rw [hhandler, show positionFor (renumbered fn).positions _ = positionFor fn.positions ip from
      positionFor_remap hkept fn.positions] at hstep
    exact hstep

end

/-- **A branch that takes a jump over**: falling through it to the jump is the negated branch taken. -/
theorem takesOver_progress (machine : Machine Op Regs) (hvalid : fn.Valid) (htake : takesOver fn ip) (registers : Regs) :
    ∃ cond negate far, (thread fn.instructions)[ip]? = some (.jumpIf cond negate (ip + 2)) ∧
      (machine.truthy registers cond = negate →
        Step machine (threaded fn) (.running ip registers) [] (.running (ip + 1) registers) ∧
        ∃ labels, Step machine (threaded fn) (.running (ip + 1) registers) labels (.running far registers) ∧
          Step machine (renumbered fn) (.running (remap (removedJumps fn) ip) registers) labels
            (.running (remap (removedJumps fn) far) registers) ∧
          Aligned fn (.running far registers) (.running (remap (removedJumps fn) far) registers)) ∧
      (machine.truthy registers cond ≠ negate →
        Step machine (threaded fn) (.running ip registers) [] (.running (ip + 2) registers) ∧
        Step machine (renumbered fn) (.running (remap (removedJumps fn) ip) registers) []
          (.running (remap (removedJumps fn) (ip + 2)) registers) ∧
        Aligned fn (.running (ip + 2) registers) (.running (remap (removedJumps fn) (ip + 2)) registers)) := by
  obtain ⟨cond, negate, far, hbranch, hjump, hinv, hkept, hgone, hfar⟩ := takesOver_code hvalid htake
  have hlt : ip < fn.instructions.length := by
    have := (List.getElem?_eq_some_iff.1 hbranch).1
    rwa [length_thread] at this
  have hcode := renumbered_code hlt hkept
  rw [hinv] at hcode
  refine ⟨cond, negate, far, hbranch, fun huntaken => ⟨.untaken hbranch huntaken, ?_⟩, fun htaken => ?_⟩
  · obtain ⟨hle, hfree⟩ := target_ok hvalid hjump rfl
    have hpoll : (pollIf (decide (remap (removedJumps fn) far < remap (removedJumps fn) ip + 1)) : List (Event Op Regs)) =
        pollIf (decide (far < ip + 1 + 1)) := by
      rw [decide_eq_decide.2 ((backward_iff hkept far).trans (by omega : far < ip + 1 ↔ far < ip + 1 + 1))]
    refine ⟨_, .jump hjump, hpoll ▸ .taken hcode ?_, .running hle hfree⟩
    rw [huntaken]
    cases negate <;> simp
  · obtain ⟨hle, hfree⟩ := target_ok hvalid hbranch rfl
    have hnext : remap (removedJumps fn) (ip + 2) = remap (removedJumps fn) ip + 1 := by
      rw [remap_succ_of_removed hgone, remap_succ_of_kept hkept]
    have hstep : Step machine (threaded fn) (.running ip registers) (pollIf (decide (ip + 2 < ip + 1)))
      (.running (ip + 2) registers) := .taken hbranch htaken
    rw [decide_eq_false (by omega)] at hstep
    refine ⟨hstep, hnext ▸ .untaken hcode ?_, .running hle hfree⟩
    cases hneg : negate <;> simp_all

variable {labels : List (Event Op Regs)} {ip' : ℕ} {registers' : Regs}

theorem Step.lt_length
    (h : Step machine fn s labels s') (hs : s = .running ip registers) : ip < fn.instructions.length := by
  cases h with
  | jump code | taken code | untaken code | operation code => cases hs; exact (List.getElem?_eq_some_iff.1 code).1

theorem dropped_step (hvalid : fn.Valid) (hremoved : removedJumps fn ip = true) (habs : absorbed fn ip = false)
    (registers : Regs) : ∃ target, Step machine (threaded fn) (.running ip registers) [] (.running target registers) ∧
      target ≤ fn.instructions.length ∧ absorbed fn target = false ∧
      remap (removedJumps fn) target = remap (removedJumps fn) ip ∧
      (target < fn.instructions.length → removedJumps fn target = false) := by
  obtain ⟨target, hcode, hlt, hle, hmap, hend⟩ := dropped_code hvalid hremoved habs
  have hstep : Step machine (threaded fn) (.running ip registers) (pollIf (decide (target < ip + 1)))
    (.running target registers) := .jump hcode
  rw [decide_eq_false (by omega)] at hstep
  exact ⟨target, hstep, hle, (target_ok hvalid hcode rfl).2, hmap, hend⟩

/-- **One step of the threaded function** is a run of the result. -/
theorem renumbered_step (hvalid : fn.Valid) (hinner : Undisturbed fn) (s t : State Regs)
    (labels : List (Event Op Regs)) (s' : State Regs) (hr : Corresponds machine fn s t)
    (hstep : Step machine (threaded fn) s labels s') :
    ∃ t', Run (Step machine (renumbered fn)) t labels t' ∧ Corresponds machine fn s' t' := by
  cases hr with
  | aligned h =>
    cases h with
    | halted => cases hstep
    | @running ip registers hle hfree =>
      have hlt : ip < fn.instructions.length := by
        have := hstep.lt_length rfl
        rwa [threaded, length_thread] at this
      cases hremoved : removedJumps fn ip with
      | true =>
        obtain ⟨target, hdrop, hle', hfree', hmap, -⟩ := dropped_step hvalid hremoved hfree registers
        obtain ⟨rfl, rfl⟩ := hstep.deterministic hdrop
        exact ⟨_, .refl _, hmap ▸ .aligned (.running hle' hfree')⟩
      | false =>
        by_cases htake : takesOver fn ip
        · obtain ⟨cond, negate, far, hbranch, huntaken, htaken⟩ := takesOver_progress machine hvalid htake registers
          by_cases htruthy : machine.truthy registers cond = negate
          · obtain ⟨rfl, rfl⟩ := hstep.deterministic (huntaken htruthy).1
            exact ⟨_, .refl _, .behind htake hbranch htruthy⟩
          obtain ⟨hfirst, hsecond, haligned⟩ := htaken htruthy
          obtain ⟨rfl, rfl⟩ := hstep.deterministic hfirst
          exact ⟨_, .single hsecond, .aligned haligned⟩
        · obtain ⟨_, _, t', hfirst, hsecond, haligned⟩ := plain_progress hvalid hinner hlt hremoved htake registers
          obtain ⟨rfl, rfl⟩ := hstep.deterministic hfirst
          exact ⟨t', .single hsecond, .aligned haligned⟩
  | @behind ip cond negate registers htake hbranch htruthy =>
    obtain ⟨c, n, far, hbranch', huntaken, -⟩ := takesOver_progress machine hvalid htake registers
    rw [hbranch] at hbranch'
    cases hbranch'
    obtain ⟨-, _, hfirst, hsecond, haligned⟩ := huntaken htruthy
    obtain ⟨rfl, rfl⟩ := hstep.deterministic hfirst
    exact ⟨_, .single hsecond, .aligned haligned⟩

theorem reach_kept (machine : Machine Op Regs) (hvalid : fn.Valid) (hle : ip ≤ fn.instructions.length) (hfree : absorbed fn ip = false)
    (hlt : kept < fn.instructions.length) (hkept : removedJumps fn kept = false)
    (hmap : remap (removedJumps fn) ip = remap (removedJumps fn) kept) (registers : Regs) :
    Run (Step machine (threaded fn)) (.running ip registers) [] (.running kept registers) := by
  have hlast : remap (removedJumps fn) kept < remap (removedJumps fn) fn.instructions.length := (remap_lt_iff hkept).2 hlt
  -- the map is injective on kept instructions, and none of them goes to the end
  have hinj : ∀ {k}, k ≤ fn.instructions.length → (k < fn.instructions.length → removedJumps fn k = false) →
      remap (removedJumps fn) k = remap (removedJumps fn) kept → k = kept := by
    intro k hk hkept' heq
    rcases hk.lt_or_eq with hk | rfl
    · have h1 : remap (removedJumps fn) k < remap (removedJumps fn) kept ↔ k < kept := remap_lt_iff (hkept' hk)
      have h2 : remap (removedJumps fn) kept < remap (removedJumps fn) k ↔ kept < k := remap_lt_iff hkept
      omega
    · omega
  cases hremoved : removedJumps fn ip with
  | true =>
    obtain ⟨target, hdrop, hle', -, hmap', hend⟩ := dropped_step hvalid hremoved hfree registers
    rw [hinj hle' hend (hmap'.trans hmap)] at hdrop
    exact .single hdrop
  | false =>
    rw [hinj hle (fun _ => hremoved) hmap]
    exact .refl _

/-- **One step of the result** is a run of the threaded function. -/
theorem renumbered_back (hvalid : fn.Valid) (hinner : Undisturbed fn) (t s : State Regs)
    (labels : List (Event Op Regs)) (t' : State Regs) (hr : Aligned fn s t) (hstep : Step machine (renumbered fn) t labels t') :
    ∃ s', Run (Step machine (threaded fn)) s labels s' ∧ Aligned fn s' t' := by
  cases hr with
  | halted => cases hstep
  | @running ip registers hle hfree =>
    have hlt := hstep.lt_length rfl
    rw [renumbered, length_keptCode _ (length_inverted fn).ge] at hlt
    obtain ⟨kept, hlt', hkept, hmap⟩ := exists_kept hlt
    have hreach := reach_kept machine hvalid hle hfree hlt' hkept hmap.symm registers
    rw [← hmap] at hstep
    by_cases htake : takesOver fn kept
    · obtain ⟨cond, negate, far, hbranch, huntaken, htaken⟩ := takesOver_progress machine hvalid htake registers
      by_cases htruthy : machine.truthy registers cond = negate
      · obtain ⟨hfall, _, hfirst, hsecond, haligned⟩ := huntaken htruthy
        obtain ⟨rfl, rfl⟩ := hstep.deterministic hsecond
        exact ⟨_, hreach.silent_head ((Run.single hfall).silent_head (.single hfirst)), haligned⟩
      obtain ⟨hfirst, hsecond, haligned⟩ := htaken htruthy
      obtain ⟨rfl, rfl⟩ := hstep.deterministic hsecond
      exact ⟨_, hreach.silent_head (.single hfirst), haligned⟩
    · obtain ⟨_, s', _, hfirst, hsecond, haligned⟩ := plain_progress hvalid hinner hlt' hkept htake registers
      obtain ⟨rfl, rfl⟩ := hstep.deterministic hsecond
      exact ⟨s', hreach.silent_head (.single hfirst), haligned⟩

/-! ## Loops -/

/-- steps along the control flow, without a throw to a handler; at least one -/
inductive Flow (machine : Machine Op Regs) (fn : MalFunction Op) : ℕ → Regs → List (Event Op Regs) → ℕ → Regs → Prop
  | single {ip ip' : ℕ} {registers registers' : Regs} {labels : List (Event Op Regs)}
    (step : Step machine fn (.running ip registers) labels (.running ip' registers'))
    (flow : ∀ operation after, fn.instructions[ip]? = some (.op operation) → machine.execute operation registers ≠ .throws after) :
    Flow machine fn ip registers labels ip' registers'
  | trans {ip ip' ip'' : ℕ} {registers registers' registers'' : Regs} {labels more : List (Event Op Regs)}
    (first : Flow machine fn ip registers labels ip' registers') (rest : Flow machine fn ip' registers' more ip'' registers'') :
    Flow machine fn ip registers (labels ++ more) ip'' registers''

theorem Flow.run (h : Flow machine fn ip registers labels ip' registers') :
    Run (Step machine fn) (.running ip registers) labels (.running ip' registers') := by
  induction h with
  | single step _ => exact .single step
  | trans _ _ ih ih' => exact ih.trans ih'

theorem Flow.poll_or_forward
    (h : Flow machine fn ip registers labels ip' registers') : Event.poll ∈ labels ∨ ip < ip' := by
  induction h with
  | @single ip ip' registers registers' labels step flow =>
    have hpoll : ∀ {target : ℕ}, Event.poll ∈ (pollIf (decide (target < ip + 1)) : List (Event Op Regs)) ∨ ip < target := by
      intro target
      by_cases h : target < ip + 1
      · rw [decide_eq_true h]
        exact .inl mem_cons_self
      · exact .inr (by omega)
    generalize hs : State.running ip' registers' = s' at step
    cases step with
    | jump | taken => cases hs; exact hpoll
    | untaken => cases hs; exact .inr (Nat.lt_succ_self ip)
    | @operation _ operation _ code =>
      cases hout : machine.execute operation registers with
      | next after => rw [hout] at hs; cases hs; exact .inr (Nat.lt_succ_self ip)
      | throws after => exact absurd hout (flow operation after code)
      | leaves => rw [hout] at hs; cases hs
  | trans _ _ ih ih' =>
    rcases ih with h | h
    · exact .inl (mem_append_left _ h)
    rcases ih' with h' | h'
    · exact .inl (mem_append_right _ h')
    · exact .inr (h.trans h')

/-- **The two functions simulate each other** from an instruction pointer and its image. -/
theorem compact_simulates (machine : Machine Op Regs) (hvalid : fn.Valid) (hinner : Undisturbed fn)
    (hle : ip ≤ fn.instructions.length) (hfree : absorbed fn ip = false) (registers : Regs) (labels : List (Event Op Regs)) :
    (∀ s, Run (Step machine fn) (.running ip registers) labels s → ∃ t,
      Run (Step machine (compactJumps fn)) (.running (ipMap fn ip) registers) labels t ∧ (s = .halted → t = .halted)) ∧
    ∀ t, Run (Step machine (compactJumps fn)) (.running (ipMap fn ip) registers) labels t → ∃ s,
      Run (Step machine fn) (.running ip registers) labels s ∧ (t = .halted → s = .halted) := by
  by_cases hcount : fn.instructions.length < 2
  · rw [compactJumps, if_pos hcount, ipMap, if_pos hcount]
    exact ⟨fun s h => ⟨s, h, id⟩, fun t h => ⟨t, h, id⟩⟩
  rw [compactJumps_eq hvalid hcount, ipMap, if_neg hcount]
  have haligned : Aligned fn (.running ip registers) (.running (remap (removedJumps fn) ip) registers) := .running hle hfree
  constructor
  · intro s hrun
    obtain ⟨u, hrun₁, hahead⟩ := hrun.simulate threaded_step _ (Ahead.refl fn _)
    obtain ⟨t, hrun₂, hcorr⟩ := hrun₁.simulate (renumbered_step hvalid hinner) _ (.aligned haligned)
    refine ⟨t, hrun₂, ?_⟩
    rintro rfl
    cases hahead
    cases hcorr with
    | aligned h => cases h; rfl
  · intro t hrun
    obtain ⟨u, hrun₁, hback⟩ := Run.simulate (R := fun t s => Aligned fn s t) (renumbered_back hvalid hinner) hrun _ haligned
    obtain ⟨s, hrun₂, rfl⟩ := hrun₁.simulate threaded_back _ rfl
    refine ⟨u, hrun₂, ?_⟩
    rintro rfl
    cases hback
    rfl

/-- From an instruction pointer and its image, the same events and the same ends; a loop of the original polls, and its events
are events of the result; the snapshot prefix stays. -/
def Preserves (machine : Machine Op Regs) (fn : MalFunction Op) : Prop :=
  (∀ ip ≤ fn.instructions.length, absorbed fn ip = false → ∀ (registers : Regs) (labels : List (Event Op Regs)),
    ((∃ s, Run (Step machine fn) (.running ip registers) labels s) ↔
      ∃ s, Run (Step machine (compactJumps fn)) (.running (ipMap fn ip) registers) labels s) ∧
    (Run (Step machine fn) (.running ip registers) labels .halted ↔
      Run (Step machine (compactJumps fn)) (.running (ipMap fn ip) registers) labels .halted)) ∧
  (∀ ip ≤ fn.instructions.length, absorbed fn ip = false → ∀ (registers registers' : Regs) (labels : List (Event Op Regs)),
    Flow machine fn ip registers labels ip registers' → Event.poll ∈ labels ∧
      ∃ s, Run (Step machine (compactJumps fn)) (.running (ipMap fn ip) registers) labels s) ∧
  (compactJumps fn).argumentSnapshotCount = fn.argumentSnapshotCount ∧
  ∀ ip < fn.argumentSnapshotCount, (compactJumps fn).instructions[ip]? = fn.instructions[ip]?

theorem preserves_of_undisturbed (machine : Machine Op Regs) (hvalid : fn.Valid) (hinner : Undisturbed fn) :
    Preserves machine fn := by
  refine ⟨fun ip hle hfree registers labels => ?_, fun ip hle hfree registers registers' labels hflow => ?_,
    prefix_unchanged hvalid⟩
  · obtain ⟨hforth, hback⟩ := compact_simulates machine hvalid hinner hle hfree registers labels
    refine ⟨⟨fun ⟨s, h⟩ => ?_, fun ⟨t, h⟩ => ?_⟩, fun h => ?_, fun h => ?_⟩
    · obtain ⟨t, ht, -⟩ := hforth s h
      exact ⟨t, ht⟩
    · obtain ⟨s, hs, -⟩ := hback t h
      exact ⟨s, hs⟩
    · obtain ⟨t, ht, hhalt⟩ := hforth _ h
      rwa [hhalt rfl] at ht
    · obtain ⟨s, hs, hhalt⟩ := hback _ h
      rwa [hhalt rfl] at hs
  · obtain ⟨t, ht, -⟩ := (compact_simulates machine hvalid hinner hle hfree registers labels).1 _ hflow.run
    exact ⟨hflow.poll_or_forward.resolve_right (lt_irrefl ip), t, ht⟩

theorem run_operation {operation : Op} {event : Event Op Regs} (hcode : fn.instructions[ip]? = some (.op operation))
    (h : Run (Step machine fn) (.running ip registers) [event] s) :
    event = .execute operation registers (positionFor fn.positions ip) ((innermost fn ip).map Prod.fst) := by
  generalize hlabels : [event] = labels at h
  cases h with
  | refl => cases hlabels
  | head hstep _ =>
    obtain ⟨rfl, -⟩ := hstep.deterministic (.operation hcode)
    exact (cons_eq_cons.1 hlabels).1

/-- **The converse**: the event of an operation names its handler. -/
theorem undisturbed_of_preserves [Nonempty Regs] (machine : Machine Op Regs) (hvalid : fn.Valid)
    (h : Preserves machine fn) : Undisturbed fn := by
  intro ip operation hcode chosen hchosen
  obtain ⟨hthread, hkept, hfree, hplain⟩ := operation_kept hvalid hcode
  have hlt := (List.getElem?_eq_some_iff.1 hcode).1
  obtain ⟨registers⟩ := ‹Nonempty Regs›
  by_cases hcount : fn.instructions.length < 2
  · -- the operation is the only instruction
    have hneeded : ∀ k, ¬Superfluous fn k := by
      rintro k (⟨htake⟩ | ⟨-, hjump, -⟩)
      · obtain ⟨-, _, _, _, -, hjump, -⟩ := takesOver_iff.1 htake
        have := (List.getElem?_eq_some_iff.1 hjump).1
        rw [length_thread] at this
        omega
      · have := (List.getElem?_eq_some_iff.1 hjump).1
        rw [length_thread] at this
        rw [show k = ip by omega, hthread] at hjump
        cases hjump
    have hsize : neededSize fn = Handler.size := by
      funext handler
      simp [neededSize, hneeded, Handler.size]
    rw [hsize]
    exact (innermost_iff.1 hchosen).2
  obtain ⟨t, ht⟩ := ((h.1 ip hlt.le hfree registers _).1).1 ⟨_, .single (.operation hcode)⟩
  rw [compactJumps_eq hvalid hcount, ipMap, if_neg hcount] at ht
  have hcode' := renumbered_code hlt hkept
  rw [inverted_spec.1, if_neg hplain, hthread] at hcode'
  have hevent := run_operation hcode' ht
  simp only [Event.execute.injEq, hchosen, Option.map_some] at hevent
  obtain ⟨found, hfound, hindex⟩ := Option.map_eq_some_iff.1 hevent.2.2.2.symm
  obtain ⟨handler, hhandler, himage⟩ := (around_renumbered hkept).1 (innermost_iff.1 hfound).1
  have haround := (innermost_iff.1 hchosen).1
  obtain rfl : chosen.2 = handler := Option.some.inj (haround.1.symm.trans (hindex ▸ hhandler.1))
  refine (innermost_renumbered_iff hvalid hkept haround).1 ?_
  rw [hfound]
  exact congrArg some (Prod.ext hindex himage)

/-- **Jump compaction** preserves interpretation exactly when no superfluous jump decides which handler is innermost. -/
theorem compact_jumps_preserves [Nonempty Regs] (machine : Machine Op Regs) (fn : MalFunction Op) (hvalid : fn.Valid) :
    Preserves machine fn ↔ Undisturbed fn :=
  ⟨undisturbed_of_preserves machine hvalid, preserves_of_undisturbed machine hvalid⟩

end Simulation

def branchFunction : MalFunction ℕ where
  instructions := [.op 0, .jumpIf 0 false 3, .jump 5, .op 1, .jump 0, .op 2]
  handlers := [⟨0, 2, 5⟩, ⟨0, 4, 5⟩]
  positions := [⟨0, 7⟩, ⟨3, 8⟩]
  gcSafepoints := [⟨0, [0], []⟩]
  argumentSnapshotCount := 1

def countdown : Machine ℕ ℕ where
  execute operation registers := if operation = 2 then .leaves else .next (registers - operation)
  truthy registers _ := registers != 0

theorem branchFunction_valid : branchFunction.Valid where
  targets := by simp [branchFunction, Instr.target?]
  handlers := by simp [branchFunction]
  positions := by simp [branchFunction]
  safepoints := by simp [branchFunction]
  prefix_le := by decide
  prefix_loads ip h := by
    obtain rfl : ip = 0 := Nat.lt_one_iff.1 h
    exact ⟨0, rfl⟩

theorem branchFunction_undisturbed : Undisturbed branchFunction := by
  intro ip operation _ chosen hchosen other hother
  have hentry : ∀ entry, Around branchFunction ip entry → entry = (0, ⟨0, 2, 5⟩) ∨ entry = (1, ⟨0, 4, 5⟩) := by
    rintro ⟨_ | _ | k, handler⟩ ⟨hget, -⟩ <;> simp_all [branchFunction]
  have hinner : neededSize branchFunction ⟨0, 2, 5⟩ = 2 := (size_remap branchFunction_valid _).symm
  have houter : neededSize branchFunction ⟨0, 4, 5⟩ = 3 := (size_remap branchFunction_valid _).symm
  obtain ⟨haround, hfirst⟩ := innermost_iff.1 hchosen
  have hsmaller := hfirst other hother
  rcases hentry chosen haround with rfl | rfl <;> rcases hentry other hother with rfl | rfl <;>
    simp_all [Precedes, Handler.size]

theorem compact_jumps_preserves_branch : branchFunction.Valid ∧ Undisturbed branchFunction ∧
    (compactJumps branchFunction).instructions.length = 5 ∧ Preserves countdown branchFunction :=
  ⟨branchFunction_valid, branchFunction_undisturbed, rfl,
    (compact_jumps_preserves countdown branchFunction branchFunction_valid).2 branchFunction_undisturbed⟩

/-- a try around another and a jump behind it, with the outer handler first in the table -/
def outerFirst : MalFunction ℕ where
  instructions := [.op 0, .op 1, .jump 3, .op 2, .op 3]
  handlers := [⟨0, 3, 4⟩, ⟨0, 2, 3⟩]
  positions := []
  gcSafepoints := []
  argumentSnapshotCount := 0

/-- without the jump the two ranges are one, and a throw at the first instruction goes to the outer handler -/
theorem outer_first_changes_handler : outerFirst.Valid ∧ absorbed outerFirst 0 = false ∧ ipMap outerFirst 0 = 0 ∧
    (innermost outerFirst 0).map Prod.fst = some 1 ∧ (innermost (compactJumps outerFirst) 0).map Prod.fst = some 0 := by
  refine ⟨⟨?_, ?_, ?_, ?_, ?_, ?_⟩, rfl, rfl, rfl, rfl⟩
  · simp [outerFirst, Instr.target?]
  · simp [outerFirst]
  · simp [outerFirst]
  · simp [outerFirst]
  · decide
  · exact nofun

end Maligator.Loader
