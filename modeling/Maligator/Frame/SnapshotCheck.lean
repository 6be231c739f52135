/-
The loader's check of an argument snapshot plan (`rd_function`, `vm_load.c`).

The check runs over the plan once, with the set of destinations already written and the pending scratch move, and refuses
a move that reads an argument slot an earlier move has written.

`checkMove_cases` says once what an accepted move is; with what execution keeps, `accepted_plan_executes` follows.
A plan of the compiler is refused exactly where a self-move counts as a write although it changes nothing: the self-moves
come first, so a second reader of such an argument finds it written (`Step.readerWaits`), and without one the builder's
plan is accepted (`Step.accepted`).
-/
import Maligator.Frame.SnapshotPlan

namespace Maligator.Frame

open List Option

/-! ## The check -/

/-- the locals of the checking loop; the scratch pair is the destination and the source, while scratch is live -/
structure CheckState where
  written : ℕ → Bool
  scratch : Option (ℤ × ℤ)
  destinationWrites : ℕ

def CheckState.start : CheckState := ⟨fun _ => false, none, 0⟩

section

variable (fn : BytecodeFunction) (state : CheckState)

def overwritten (source : ℤ) : Bool :=
  fn.parameterCount ≤ source && source < fn.parameterCount + fn.argumentSnapshotCount &&
    state.written (source - fn.parameterCount).toNat

def outOfRange (destination : ℤ) : Bool :=
  destination < fn.parameterCount || destination ≥ fn.parameterCount + fn.argumentSnapshotCount

def snapshotInstruction (destination : ℤ) : Instruction :=
  fn.instructions.getD (destination - fn.parameterCount).toNat .other

def expectedSource : Instruction → ℤ
  | .loadArgument _ index => index
  | _ => sourceCount

def checkSave (savedDestination source : ℤ) : Option CheckState :=
  if state.scratch.isSome ∨ source < 0 ∨ outOfRange fn savedDestination then none
  else
    match snapshotInstruction fn savedDestination with
    | .loadArgument _ index =>
      if index ≠ source ∨ overwritten fn state source then none
      else some { state with scratch := some (savedDestination, source) }
    | _ => none

def takeSource (move : Move) : Option (Option (ℤ × ℤ) × ℤ) :=
  if move.source = sourceScratch then
    match state.scratch with
    | some (destination, source) => if move.destination ≠ destination then none else some (none, source)
    | none => none
  else if overwritten fn state move.source then none
  else some (state.scratch, move.source)

def checkMove (move : Move) : Option CheckState :=
  if move.destination < 0 then checkSave fn state (-move.destination - 1) move.source
  else if outOfRange fn move.destination ∨
      (move.source < 0 ∧ move.source ≠ sourceCount ∧ move.source ≠ sourceScratch) then none
  else
    match takeSource fn state move with
    | none => none
    | some (scratch, actual) =>
      if actual ≠ expectedSource (snapshotInstruction fn move.destination) then none
      else if state.written (move.destination - fn.parameterCount).toNat then none
      else
        some ⟨Function.update state.written (move.destination - fn.parameterCount).toNat true, scratch,
          state.destinationWrites + 1⟩

/-- the prefix loop; decoding has already refused a negative index -/
def prefixInstructionAccepted (i : ℕ) : Bool :=
  match fn.instructions[i]? with
  | some (.loadArgumentCount dst) => dst = fn.parameterCount + i
  | some (.loadArgument dst index) => dst = fn.parameterCount + i && 0 ≤ index
  | _ => false

def prefixAccepted : Bool :=
  0 ≤ fn.argumentSnapshotCount && fn.argumentSnapshotCount ≤ fn.registerCount - (fn.parameterCount : ℤ) &&
    fn.argumentSnapshotCount ≤ fn.instructions.length &&
    (List.range fn.argumentSnapshotCount.toNat).all (prefixInstructionAccepted fn) &&
    !isArgumentLoad fn.instructions[fn.argumentSnapshotCount.toNat]?

def acceptsPlan (plan : List Move) : Bool :=
  prefixAccepted fn && fn.argumentSnapshotCount ≤ (2 ^ 32 - 1) / 2 && fn.argumentSnapshotCount ≤ plan.length &&
    plan.length ≤ fn.argumentSnapshotCount * 2 &&
    match plan.foldlM (checkMove fn) CheckState.start with
    | none => false
    | some state => state.scratch.isNone && state.destinationWrites = fn.argumentSnapshotCount

/-! ## Entries of the prefix -/

theorem directMove_source (snapshot : Snapshot) : snapshot.source = none ∧ (directMove snapshot).source = sourceCount ∨
    ∃ index : ℕ, snapshot.source = some index ∧ (directMove snapshot).source = index := by
  rw [directMove]
  cases snapshot.source with
  | none => exact .inl ⟨rfl, rfl⟩
  | some index => exact .inr ⟨index, rfl, rfl⟩

def IsEntryAt (k : ℕ) (snapshot : Snapshot) : Prop :=
  (k : ℤ) < fn.argumentSnapshotCount ∧ snapshot.destination = fn.parameterCount + k ∧
    ((∃ dst, fn.instructions[k]? = some (.loadArgumentCount dst) ∧ snapshot.source = none) ∨
      ∃ dst, ∃ index : ℕ, fn.instructions[k]? = some (.loadArgument dst index) ∧ snapshot.source = some index)

def IsEntry (snapshot : Snapshot) : Prop := ∃ k, IsEntryAt fn k snapshot

end

section Entries

variable {fn : BytecodeFunction} {snapshot : Snapshot} {k : ℕ}

section

variable (h : IsEntryAt fn k snapshot)
include h

theorem IsEntryAt.inRange : outOfRange fn snapshot.destination = false := by
  obtain ⟨hk, hd, -⟩ := h
  simp only [outOfRange, Bool.or_eq_false_iff, decide_eq_false_iff_not]
  omega

theorem IsEntryAt.dense : ((snapshot.destination : ℤ) - fn.parameterCount).toNat = k := by
  rw [h.2.1]
  omega

theorem IsEntryAt.expectedSource :
    Frame.expectedSource (snapshotInstruction fn snapshot.destination) = (directMove snapshot).source := by
  rw [snapshotInstruction, h.dense, getD_eq_getElem?_getD]
  obtain ⟨-, -, ⟨dst, hi, hs⟩ | ⟨dst, index, hi, hs⟩⟩ := h
  · rw [hi, directMove, hs]
    rfl
  · rw [hi, directMove, hs]
    rfl

theorem IsEntryAt.expected (w : Window) (memory : Memory) :
    some (Frame.expected w memory snapshot) = fn.instructions[k]?.map (loadValue w memory) := by
  obtain ⟨-, -, ⟨dst, hi, hs⟩ | ⟨dst, index, hi, hs⟩⟩ := h
  · rw [hi, Frame.expected, hs]
    rfl
  · rw [hi, Frame.expected, hs, map_some, loadValue, elim_some, readArgument]
    simp only [Int.natCast_nonneg, true_and]

end

theorem exists_entry (hentries : prefixAccepted fn = true) (hk : (k : ℤ) < fn.argumentSnapshotCount) :
    ∃ snapshot, IsEntryAt fn k snapshot := by
  simp only [prefixAccepted, Bool.and_eq_true, List.all_eq_true, mem_range] at hentries
  have h := hentries.1.2 k (by omega)
  unfold prefixInstructionAccepted at h
  split at h
  · next dst hi => exact ⟨⟨fn.parameterCount + k, none⟩, hk, rfl, .inl ⟨dst, hi, rfl⟩⟩
  · next dst index hi =>
    rw [Bool.and_eq_true, decide_eq_true_eq, decide_eq_true_eq] at h
    refine ⟨⟨fn.parameterCount + k, some index.toNat⟩, hk, rfl, .inr ⟨dst, index.toNat, ?_, rfl⟩⟩
    rw [hi, Int.toNat_of_nonneg h.2]
  · cases h

theorem exists_entry_of_inRange (hentries : prefixAccepted fn = true) {destination : ℤ}
    (h : outOfRange fn destination = false) : ∃ snapshot k, IsEntryAt fn k snapshot ∧ (snapshot.destination : ℤ) = destination := by
  simp only [outOfRange, Bool.or_eq_false_iff, decide_eq_false_iff_not] at h
  obtain ⟨snapshot, hs⟩ := exists_entry hentries (k := (destination - fn.parameterCount).toNat) (by omega)
  refine ⟨snapshot, _, hs, ?_⟩
  rw [hs.2.1]
  omega

end Entries

/-! ## What an accepted move is -/

/-- the state of the check after the moves of `done`, with `saved` in scratch -/
structure Checked (fn : BytecodeFunction) (state : CheckState) (done : List Snapshot) (saved : Option Snapshot) : Prop where
  written : ∀ k, state.written k = true ↔ fn.parameterCount + k ∈ destinations done
  nodup : (destinations done).Nodup
  entries : ∀ snapshot ∈ done, IsEntry fn snapshot
  scratch : state.scratch = saved.map fun snapshot => ((snapshot.destination : ℤ), (directMove snapshot).source)
  saved_entry : ∀ snapshot ∈ saved, IsEntry fn snapshot ∧ snapshot.source.isSome = true
  writes : state.destinationWrites = done.length

theorem Checked.start (fn : BytecodeFunction) : Checked fn .start [] none :=
  ⟨fun k => by simp [CheckState.start, destinations], nodup_nil, by simp, rfl, by simp, rfl⟩

variable {saved' saved : Option Snapshot} {snapshot : Snapshot} {state' : CheckState}

section Checked

variable {fn : BytecodeFunction} {state : CheckState} {done : List Snapshot}

section

variable (h : Checked fn state done saved)
include h

theorem Checked.overwritten_iff (index : ℕ) : overwritten fn state index = true ↔ index ∈ destinations done := by
  rw [overwritten, Bool.and_eq_true, Bool.and_eq_true, decide_eq_true_eq, decide_eq_true_eq, h.written]
  constructor
  · rintro ⟨⟨hlo, -⟩, hmem⟩
    rwa [show fn.parameterCount + ((index : ℤ) - fn.parameterCount).toNat = index by omega] at hmem
  intro hmem
  obtain ⟨snapshot, hs, rfl⟩ := mem_map.1 hmem
  obtain ⟨k, hk, hd, -⟩ := h.entries snapshot hs
  have hcast : ((snapshot.destination : ℤ) - fn.parameterCount).toNat = k := by rw [hd]; push_cast; omega
  refine ⟨⟨by rw [hd]; push_cast; omega, by rw [hd]; push_cast; omega⟩, ?_⟩
  rw [hcast, ← hd]
  exact hmem

variable {k : ℕ}

theorem Checked.write (hentry : IsEntryAt fn k snapshot)
    (hfresh : snapshot.destination ∉ destinations done) (hsaved : ∀ s ∈ saved', s ∈ saved) {scratch : Option (ℤ × ℤ)}
    (hscratch : scratch = saved'.map fun snapshot => ((snapshot.destination : ℤ), (directMove snapshot).source)) :
    Checked fn ⟨Function.update state.written k true, scratch, state.destinationWrites + 1⟩ (snapshot :: done) saved' := by
  refine ⟨fun j => ?_, nodup_cons.2 ⟨hfresh, h.nodup⟩, ?_, hscratch, fun s hs => h.saved_entry s (hsaved s hs), ?_⟩
  · dsimp only
    rw [destinations, map_cons, mem_cons, hentry.2.1]
    by_cases hj : j = k
    · subst hj
      simp
    rw [Function.update_of_ne hj, h.written j]
    constructor
    · exact .inr
    · rintro (heq | hmem)
      · exact absurd (by omega) hj
      · exact hmem
  · intro s hs
    rcases mem_cons.1 hs with rfl | hs
    · exact ⟨k, hentry⟩
    · exact h.entries s hs
  · rw [h.writes, length_cons]

theorem Checked.unwritten (hk : IsEntryAt fn k snapshot)
    (hfresh : snapshot.destination ∉ destinations done) : state.written k = false := by
  rw [Bool.eq_false_iff, ne_eq, h.written, ← hk.2.1]
  exact hfresh

/-- **A direct move of an entry** is accepted when neither its source nor its destination is written. -/
theorem Checked.direct (hentry : IsEntry fn snapshot) (hsource : ∀ index ∈ snapshot.source, index ∉ destinations done)
    (hfresh : snapshot.destination ∉ destinations done) :
    ∃ state', checkMove fn state (directMove snapshot) = some state' ∧ Checked fn state' (snapshot :: done) saved := by
  obtain ⟨k, hk⟩ := hentry
  have hd : (directMove snapshot).destination = snapshot.destination := rfl
  obtain ⟨hbad, hscratch, hover⟩ : (¬(directMove snapshot).source < 0 ∨ (directMove snapshot).source = sourceCount) ∧
      (directMove snapshot).source ≠ sourceScratch ∧ overwritten fn state (directMove snapshot).source = false := by
    rcases directMove_source snapshot with ⟨-, hc⟩ | ⟨index, hs, hi⟩
    · rw [hc, overwritten, Bool.and_eq_false_iff, Bool.and_eq_false_iff, sourceCount]
      exact ⟨.inr rfl, by decide, .inl (.inl (decide_eq_false (by omega)))⟩
    · rw [hi, sourceScratch, Bool.eq_false_iff, ne_eq (overwritten ..), h.overwritten_iff]
      exact ⟨.inl (by omega), by omega, hsource index hs⟩
  refine ⟨_, ?_, h.write hk hfresh (fun s hs => hs) h.scratch⟩
  rw [checkMove, if_neg (by rw [hd]; omega), hd, hk.inRange, if_neg (by simp; tauto), takeSource, if_neg hscratch, hover,
    if_neg (by simp)]
  dsimp only
  rw [hk.expectedSource, if_neg (by simp), hk.dense, h.unwritten hk hfresh, if_neg (by simp)]

end

theorem Checked.save (h : Checked fn state done none) (hentry : IsEntry fn snapshot) {index : ℕ}
    (hreads : snapshot.source = some index) (hsource : index ∉ destinations done) :
    ∃ state', checkMove fn state (saveMove snapshot.destination index) = some state' ∧
      Checked fn state' done (some snapshot) := by
  obtain ⟨k, hk⟩ := hentry
  have hover : overwritten fn state index = false := by
    rw [Bool.eq_false_iff, ne_eq, h.overwritten_iff]
    exact hsource
  have hinstruction : ∃ dst, snapshotInstruction fn snapshot.destination = .loadArgument dst index := by
    rw [snapshotInstruction, hk.dense, getD_eq_getElem?_getD]
    obtain ⟨-, -, ⟨dst, hi, hs⟩ | ⟨dst, other, hi, hs⟩⟩ := hk
    · rw [hs] at hreads
      cases hreads
    rw [hs] at hreads
    cases hreads
    exact ⟨dst, by rw [hi]; rfl⟩
  obtain ⟨dst, hinstruction⟩ := hinstruction
  refine ⟨{ state with scratch := some (snapshot.destination, index) }, ?_,
    ⟨h.written, h.nodup, h.entries, ?_, ?_, h.writes⟩⟩
  · have hcast : -(-(snapshot.destination : ℤ) - 1) - 1 = snapshot.destination := by omega
    rw [saveMove, checkMove, if_pos (show -(snapshot.destination : ℤ) - 1 < 0 by omega)]
    rw [hcast, checkSave, h.scratch, hk.inRange, if_neg (by simp), hinstruction]
    dsimp only
    rw [hover, if_neg (by simp)]
  · rw [map_some, directMove, hreads]
    rfl
  · intro s hs
    cases hs
    exact ⟨⟨k, hk⟩, by rw [hreads]; rfl⟩

theorem Checked.restore (h : Checked fn state done (some snapshot))
    (hfresh : snapshot.destination ∉ destinations done) :
    ∃ state', checkMove fn state (restoreMove snapshot.destination) = some state' ∧ Checked fn state' (snapshot :: done) none := by
  obtain ⟨⟨k, hk⟩, -⟩ := h.saved_entry snapshot rfl
  refine ⟨_, ?_, h.write hk hfresh (fun s hs => absurd hs (not_mem_none s)) rfl⟩
  have htake : takeSource fn state ⟨snapshot.destination, sourceScratch⟩ = some (none, (directMove snapshot).source) := by
    rw [takeSource, if_pos rfl, h.scratch, map_some]
    dsimp only
    rw [if_neg (by simp)]
  rw [restoreMove, checkMove, if_neg (show ¬((snapshot.destination : ℤ) < 0) by omega), hk.inRange, if_neg (by simp), htake]
  dsimp only
  rw [hk.expectedSource, if_neg (by simp), hk.dense, h.unwritten hk hfresh]
  rfl

variable {move : Move}

/-- an accepted save is of an entry that reads an argument -/
theorem checkMove_save (hentries : prefixAccepted fn = true) (h : Checked fn state done saved)
    (hneg : move.destination < 0) (hmove : checkMove fn state move = some state') :
    ∃ snapshot, ∃ index : ℕ, move = saveMove snapshot.destination index ∧ saved = none ∧ snapshot.source = some index ∧
      index ∉ destinations done ∧ Checked fn state' done (some snapshot) := by
  have hrun := hmove
  rw [checkMove, if_pos hneg] at hmove
  obtain ⟨hbad, hmove⟩ := ite_none_left_eq_some.1 hmove
  obtain ⟨hidle, hsource, hrange⟩ : state.scratch.isSome = false ∧ 0 ≤ move.source ∧
      outOfRange fn (-move.destination - 1) = false := by
    simp only [not_or, Bool.not_eq_true] at hbad
    exact ⟨hbad.1, by omega, hbad.2.2⟩
  obtain ⟨snapshot, k, hk, hdest⟩ := exists_entry_of_inRange hentries hrange
  have hnone : saved = none := by
    rw [h.scratch] at hidle
    simpa using hidle
  subst hnone
  rw [← hdest] at hmove
  split at hmove
  · next dst index hinstruction =>
    obtain ⟨hno, hmove⟩ := ite_none_left_eq_some.1 hmove
    obtain ⟨hindex, hover⟩ : index = move.source ∧ overwritten fn state move.source = false := by simpa using hno
    have hexpected : index = (directMove snapshot).source := by
      rw [← hk.expectedSource, hinstruction]
      rfl
    have hreads : snapshot.source = some move.source.toNat := by
      rcases directMove_source snapshot with ⟨-, hcount⟩ | ⟨other, hs, hother⟩
      · rw [hcount, sourceCount] at hexpected
        omega
      · rw [hs, ← hindex, hexpected, hother, Int.toNat_natCast]
    have hclean : move.source.toNat ∉ destinations done := by
      rw [← h.overwritten_iff, Int.toNat_of_nonneg hsource, hover]
      simp
    have hmoveEq : move = saveMove snapshot.destination move.source.toNat := by
      rw [saveMove, Int.toNat_of_nonneg hsource, hdest]
      cases move
      simp
    obtain ⟨state'', hsave, hchecked⟩ := h.save ⟨k, hk⟩ hreads hclean
    rw [← hmoveEq, hrun] at hsave
    cases hsave
    exact ⟨snapshot, move.source.toNat, hmoveEq, rfl, hreads, hclean, hchecked⟩
  · cases hmove

section Write

variable (h : Checked fn state done saved) {k : ℕ} (hk : IsEntryAt fn k snapshot)
  (hdest : (snapshot.destination : ℤ) = move.destination) (hfresh : snapshot.destination ∉ destinations done)
  {scratch : Option (ℤ × ℤ)} {actual : ℤ} (htake : takeSource fn state move = some (scratch, actual))
include h hk hdest hfresh htake

/-- a write from scratch is that of the entry in scratch -/
theorem Checked.restored (hscratch : move.source = sourceScratch) :
    ∃ pending, move = restoreMove pending.destination ∧ saved = some pending ∧ pending.destination ∉ destinations done ∧
      Checked fn ⟨Function.update state.written k true, scratch, state.destinationWrites + 1⟩ (pending :: done) none := by
  rw [takeSource, if_pos hscratch, h.scratch] at htake
  cases hsaved : saved with
  | none => rw [hsaved] at htake; cases htake
  | some pending =>
    rw [hsaved, map_some, ite_none_left_eq_some, some_inj, Prod.mk.injEq, not_not] at htake
    obtain ⟨hother, rfl, -⟩ := htake
    subst hsaved
    obtain ⟨⟨k', hk'⟩, -⟩ := h.saved_entry pending rfl
    have hsame : snapshot.destination = pending.destination := by omega
    have hkk : k' = k := by have := hk.2.1; have := hk'.2.1; omega
    subst hkk
    refine ⟨pending, ?_, rfl, hsame ▸ hfresh, h.write hk' (hsame ▸ hfresh) (fun s hs => absurd hs (not_mem_none s)) rfl⟩
    rw [restoreMove, ← hother, ← hscratch]

/-- another write is the direct move of its entry -/
theorem Checked.moved (hscratch : move.source ≠ sourceScratch) (hactual : actual = (directMove snapshot).source) :
    move = directMove snapshot ∧ (∀ index ∈ snapshot.source, index ∉ destinations done) ∧
      Checked fn ⟨Function.update state.written k true, scratch, state.destinationWrites + 1⟩ (snapshot :: done) saved := by
  rw [takeSource, if_neg hscratch, ite_none_left_eq_some, some_inj, Prod.mk.injEq] at htake
  obtain ⟨hover, rfl, hsource⟩ := htake
  have hmoveEq : move = directMove snapshot := by
    have hs : move.source = (directMove snapshot).source := hsource.trans hactual
    have hd : move.destination = (directMove snapshot).destination := hdest.symm
    cases move
    simp only at hs hd
    rw [hs, hd]
  refine ⟨hmoveEq, fun index hi hmem => hover ?_, h.write hk hfresh (fun s hs => hs) h.scratch⟩
  have hs : move.source = index := by
    rw [hmoveEq, directMove, mem_def.1 hi]
    rfl
  rw [hs]
  exact (h.overwritten_iff index).2 hmem

end Write

theorem checkMove_cases (hentries : prefixAccepted fn = true) (h : Checked fn state done saved)
    (hmove : checkMove fn state move = some state') :
    (∃ snapshot, ∃ index : ℕ, move = saveMove snapshot.destination index ∧ saved = none ∧ snapshot.source = some index ∧
      index ∉ destinations done ∧ Checked fn state' done (some snapshot)) ∨
    (∃ snapshot, move = directMove snapshot ∧ (∀ index ∈ snapshot.source, index ∉ destinations done) ∧
      snapshot.destination ∉ destinations done ∧ Checked fn state' (snapshot :: done) saved) ∨
    (∃ snapshot, move = restoreMove snapshot.destination ∧ saved = some snapshot ∧
      snapshot.destination ∉ destinations done ∧ Checked fn state' (snapshot :: done) none) := by
  by_cases hneg : move.destination < 0
  · exact .inl (checkMove_save hentries h hneg hmove)
  right
  rw [checkMove, if_neg hneg] at hmove
  obtain ⟨hbad, hmove⟩ := ite_none_left_eq_some.1 hmove
  have hrange : outOfRange fn move.destination = false := by simpa using fun hr => hbad (.inl hr)
  obtain ⟨snapshot, k, hk, hdest⟩ := exists_entry_of_inRange hentries hrange
  cases htake : takeSource fn state move with
  | none => rw [htake] at hmove; cases hmove
  | some taken =>
    rw [htake, ← hdest, hk.expectedSource, hk.dense] at hmove
    rw [ite_none_left_eq_some, ite_none_left_eq_some, some_inj, not_not] at hmove
    obtain ⟨hactual, hwritten, rfl⟩ := hmove
    have hfresh : snapshot.destination ∉ destinations done := by
      rw [h.written, ← hk.2.1] at hwritten
      exact hwritten
    by_cases hscratch : move.source = sourceScratch
    · exact .inr (h.restored hk hdest hfresh htake hscratch)
    · obtain ⟨hdirect, hsource, hchecked⟩ := h.moved hk hdest hfresh htake hscratch hactual
      exact .inl ⟨snapshot, hdirect, hsource, hfresh, hchecked⟩

end Checked

/-! ## Accepted plans are parallel moves -/

variable {fn : BytecodeFunction} {plan : List Move} {snapshots : List Snapshot} {s s' : Sched}

theorem checked_executed (hentries : prefixAccepted fn = true) (w : Window) (memory : Memory) :
    ∀ (plan : List Move) (state state' : CheckState) (done : List Snapshot) (saved : Option Snapshot)
      (machine : Memory × MalValue),
      Checked fn state done saved → Executed w memory (fun index => index ∉ destinations done) done saved machine →
      plan.foldlM (checkMove fn) state = some state' → ∃ done' saved', Checked fn state' done' saved' ∧
        Executed w memory (fun index => index ∉ destinations done') done' saved' (plan.foldl (executeMove w) machine) := by
  intro plan state state' done saved machine hc he hrun
  induction plan generalizing state done saved machine with
  | nil =>
    cases hrun
    exact ⟨done, saved, hc, he⟩
  | cons move plan ih =>
    obtain ⟨next, hnext, hrest⟩ := bind_eq_some_iff.1 hrun
    have hshrink : ∀ (snapshot : Snapshot) (i : ℕ), i ∉ destinations (snapshot :: done) →
        i ∉ destinations done ∧ i ≠ snapshot.destination := by
      intro snapshot i hi
      rw [destinations, map_cons, mem_cons, not_or] at hi
      exact ⟨hi.2, hi.1⟩
    obtain ⟨s, index, rfl, rfl, hreads, hclean, hc'⟩ | ⟨s, rfl, hsource, hfresh, hc'⟩ | ⟨s, rfl, rfl, hfresh, hc'⟩ :=
      checkMove_cases hentries hc hnext
    · exact ih next done (some s) _ hc' (he.save hreads hclean) hrest
    · exact ih next (s :: done) saved _ hc'
        (he.direct hsource hfresh fun i hi => ⟨(hshrink s i hi).1, .inl (hshrink s i hi).2⟩) hrest
    · exact ih next (s :: done) none _ hc' (he.restore hfresh fun i hi => hshrink s i hi) hrest

variable {done a b : List Snapshot} {k i : ℕ} {move : Snapshot}

theorem all_done {state : CheckState}
    (h : Checked fn state done saved) (hwrites : (state.destinationWrites : ℤ) = fn.argumentSnapshotCount)
    (hk : (k : ℤ) < fn.argumentSnapshotCount) : fn.parameterCount + k ∈ destinations done := by
  have hsub : destinations done ⊆ (List.range fn.argumentSnapshotCount.toNat).map (fn.parameterCount + ·) := by
    intro d hd
    obtain ⟨snapshot, hs, rfl⟩ := mem_map.1 hd
    obtain ⟨j, hj, hdest, -⟩ := h.entries snapshot hs
    exact mem_map.2 ⟨j, mem_range.2 (by omega), hdest.symm⟩
  have hperm := (h.nodup.subperm hsub).perm_of_length_le (by
    rw [length_map, length_range, destinations, length_map, ← h.writes]
    omega)
  exact hperm.symm.subset (mem_map.2 ⟨k, mem_range.2 (by omega), rfl⟩)

theorem accepted_plan_executes (h : acceptsPlan fn plan = true) (w : Window)
    (memory : Memory) (hi : (i : ℤ) < fn.argumentSnapshotCount) :
    some ((executePlan w memory plan).1 (w.register (fn.parameterCount + i))) =
      fn.instructions[i]?.map (loadValue w memory) := by
  unfold acceptsPlan at h
  cases hrun : plan.foldlM (checkMove fn) CheckState.start with
  | none => rw [hrun, Bool.and_false] at h; cases h
  | some state =>
    rw [hrun] at h
    simp only [Bool.and_eq_true, decide_eq_true_eq] at h
    obtain ⟨done, saved, hc, he⟩ := checked_executed h.1.1.1.1 w memory plan .start state [] none _ (Checked.start fn)
      (Executed.start w memory _) hrun
    obtain ⟨snapshot, hs, hdest⟩ := mem_map.1 (all_done hc h.2.2 hi)
    obtain ⟨k, hk⟩ := hc.entries snapshot hs
    have hki : k = i := by have := hk.2.1; omega
    subst hki
    rw [← hk.expected w memory, ← he.done snapshot hs, hdest]
    rfl

/-! ## Plans of the compiler -/

/-- an argument that a self-move reads has no other reader -/
def SelfMovesUnshared (snapshots : List Snapshot) : Prop :=
  ∀ self ∈ snapshots, self.source = some self.destination →
    ∀ other ∈ snapshots, other.source = some self.destination → other.destination = self.destination

instance (snapshots : List Snapshot) : Decidable (SelfMovesUnshared snapshots) := by
  unfold SelfMovesUnshared
  infer_instance

/-- the builder's plan so far is accepted, and no remaining move reads what is written -/
structure Accepted (fn : BytecodeFunction) (s : Sched) : Prop where
  run : ∃ state, s.plan.foldlM (checkMove fn) CheckState.start = some state ∧ Checked fn state s.done s.saved
  nodup : (destinations s.all).Nodup
  entries : ∀ snapshot ∈ s.all, IsEntry fn snapshot
  unshared : SelfMovesUnshared s.all
  unread : ∀ move ∈ s.remaining, ∀ index ∈ move.source, index ∉ destinations s.done
  least : s.done.length + s.saved.toList.length ≤ s.plan.length
  most : s.plan.length ≤ 2 * s.done.length + s.saved.toList.length

theorem foldlM_append_singleton {state : CheckState} {move : Move}
    (h : plan.foldlM (checkMove fn) CheckState.start = some state) (hmove : checkMove fn state move = some state') :
    (plan ++ [move]).foldlM (checkMove fn) CheckState.start = some state' := by
  rw [foldlM_append, h]
  change checkMove fn state move >>= pure = _
  rw [hmove]
  rfl

theorem SelfMovesUnshared.perm (h : a.Perm b) (ha : SelfMovesUnshared a) : SelfMovesUnshared b :=
  fun self hs he other ho heq => ha self (h.symm.subset hs) he other (h.symm.subset ho) heq

theorem unread_cons {rest : List Snapshot} (hlast : ∀ other ∈ rest, other.source ≠ some move.destination)
    (h : ∀ other ∈ rest, ∀ index ∈ other.source, index ∉ destinations done) :
    ∀ other ∈ rest, ∀ index ∈ other.source, index ∉ destinations (move :: done) := by
  intro other hother index hindex hin
  rcases mem_cons.1 hin with rfl | hin
  · exact hlast other hother hindex
  · exact h other hother index hindex hin

theorem Step.accepted (hstep : Step s s') (h : Accepted fn s) : Accepted fn s' := by
  have hperm := hstep.all_perm
  have hnodup := (hperm.map Snapshot.destination).nodup_iff.1 h.nodup
  have hentries : ∀ snapshot ∈ s'.all, IsEntry fn snapshot := fun snapshot hs => h.entries snapshot (hperm.symm.subset hs)
  have hunshared := h.unshared.perm hperm
  have hremaining : ∀ move ∈ s.remaining, move ∈ s.all := fun move hm =>
    mem_append_right _ (mem_append_right _ hm)
  obtain ⟨state, hrun, hchecked⟩ := h.run
  have hleast := h.least
  have hmost := h.most
  have hdirect : ∀ move rest, s.remaining.Perm (move :: rest) →
      (∀ other ∈ rest, other.source ≠ some move.destination) →
      s' = ⟨rest, move :: s.done, s.saved, s.plan ++ [directMove move]⟩ → Accepted fn s' := by
    rintro move rest split hlast rfl
    have hmem : move ∈ s.remaining := split.symm.subset (mem_cons_self ..)
    have hfresh := Sched.fresh h.nodup (mem_append_right _ hmem)
    obtain ⟨state', hmove, hchecked'⟩ := hchecked.direct (h.entries move (hremaining move hmem)) (h.unread move hmem) hfresh
    refine ⟨⟨state', foldlM_append_singleton hrun hmove, hchecked'⟩, hnodup, hentries, hunshared,
      unread_cons hlast fun other hother => h.unread other (split.symm.subset (mem_cons_of_mem _ hother)), ?_, ?_⟩ <;>
    · simp only [length_cons, length_append, length_nil]
      omega
  cases hstep with
  | @self move rest split idle self =>
    refine hdirect move rest split (fun other hother hindex => ?_) rfl
    -- a second reader of the self-move's argument would be the self-move
    have hsame := h.unshared move (hremaining move (split.symm.subset (mem_cons_self ..))) self other
      (hremaining other (split.symm.subset (mem_cons_of_mem _ hother))) hindex
    have hrest := nodup_of_perm_cons split (by
      have := h.nodup
      rw [Sched.all, destinations_append, destinations_append] at this
      exact (nodup_append.1 (nodup_append.1 this).2.1).2.1)
    exact hrest.1 (hsame ▸ mem_map_of_mem hother)
  | ready split unread =>
    exact hdirect _ _ split (fun other hother => unread other (split.symm.subset (mem_cons_of_mem _ hother))) rfl
  | @save move rest source split idle hreads =>
    have hmem : move ∈ s.remaining := split.symm.subset (mem_cons_self ..)
    rw [idle] at hchecked
    obtain ⟨state', hmove, hchecked'⟩ := hchecked.save (h.entries move (hremaining move hmem)) hreads
      (h.unread move hmem source hreads)
    rw [idle] at hleast hmost
    refine ⟨⟨state', foldlM_append_singleton hrun hmove, hchecked'⟩, hnodup, hentries, hunshared,
      fun other hother => h.unread other (split.symm.subset (mem_cons_of_mem _ hother)), ?_, ?_⟩ <;>
    · simp only [toList_some, toList_none, length_cons, length_append, length_nil] at hleast hmost ⊢
      omega
  | @restore move saved unread =>
    have hfresh : move.destination ∉ destinations s.done :=
      Sched.fresh h.nodup (mem_append_left _ (by rw [saved]; exact mem_singleton_self _))
    rw [saved] at hchecked
    obtain ⟨state', hmove, hchecked'⟩ := hchecked.restore hfresh
    rw [saved] at hleast hmost
    refine ⟨⟨state', foldlM_append_singleton hrun hmove, hchecked'⟩, hnodup, hentries, hunshared,
      unread_cons unread h.unread, ?_, ?_⟩ <;>
    · simp only [toList_some, toList_none, length_cons, length_append, length_nil] at hleast hmost ⊢
      omega

theorem Steps.accepted (h : Steps s s') (hs : Accepted fn s) : Accepted fn s' := by
  induction h with
  | refl => exact hs
  | tail _ hstep ih => exact hstep.accepted ih

theorem entry_of_snapshotOf (hk : (k : ℤ) < fn.argumentSnapshotCount)
    (h : snapshotOf fn k fn.instructions[k]? = .ok snapshot) : IsEntryAt fn k snapshot := by
  obtain ⟨hd, ⟨hi, hs⟩ | ⟨index, -, hi, hs⟩⟩ := snapshotOf_spec h
  · exact ⟨hk, hd, .inl ⟨_, hi, hs⟩⟩
  · exact ⟨hk, hd, .inr ⟨_, index, hi, hs⟩⟩

theorem prefix_entries (h : snapshotPrefix fn = .ok snapshots) : ∀ snapshot ∈ snapshots, IsEntry fn snapshot := by
  obtain ⟨hcount, -, -, -, hall⟩ := snapshotPrefix_spec h
  intro snapshot hs
  obtain ⟨k, hk, rfl⟩ := List.mem_iff_getElem.1 hs
  exact ⟨k, entry_of_snapshotOf (by have : k < snapshots.length := hk; omega) (hall k hk)⟩

theorem prefixAccepted_of_entries (h : snapshotPrefix fn = .ok snapshots) : prefixAccepted fn = true := by
  obtain ⟨hcount, hle, hregisters, hnext, hall⟩ := snapshotPrefix_spec h
  have htoNat : fn.argumentSnapshotCount.toNat = snapshots.length := by omega
  simp only [prefixAccepted, Bool.and_eq_true, decide_eq_true_eq, List.all_eq_true, mem_range, Bool.not_eq_true']
  refine ⟨⟨⟨⟨by omega, by omega⟩, by omega⟩, fun k hk => ?_⟩, by rw [htoNat]; exact hnext⟩
  obtain ⟨-, ⟨hi, -⟩ | ⟨index, -, hi, -⟩⟩ := snapshotOf_spec (hall k (by omega))
  · rw [prefixInstructionAccepted, hi]
    exact decide_eq_true rfl
  · rw [prefixInstructionAccepted, hi]
    simp

theorem built_plan_accepted (h : snapshotPrefix fn = .ok snapshots)
    (hunshared : SelfMovesUnshared snapshots) (hplan : buildArgumentSnapshotPlan fn = .ok plan) :
    acceptsPlan fn plan = true := by
  obtain ⟨hcount, -, hregisters, -, hall⟩ := snapshotPrefix_spec h
  have hnodup := nodup_destinations h
  obtain ⟨done, plan', hrun, hsteps⟩ := schedule_steps hnodup
  rw [buildArgumentSnapshotPlan, h] at hplan
  obtain rfl : plan' = plan := Except.ok.inj (hrun.symm.trans hplan)
  have hstart : Accepted fn ⟨snapshots, [], none, []⟩ := by
    exact ⟨⟨.start, rfl, Checked.start fn⟩, hnodup, prefix_entries h, hunshared, by simp [destinations], by simp, by simp⟩
  have hend := hsteps.accepted hstart
  obtain ⟨state, hstate, hchecked⟩ := hend.run
  have hlen : done.length = snapshots.length := by
    have hperm := hsteps.all_perm.length_eq
    simpa [Sched.all] using hperm.symm
  have hleast := hend.least
  have hmost := hend.most
  have hfit := fn.registers_fit
  simp only [toList_none, length_nil] at hleast hmost
  simp only [acceptsPlan, hstate, Bool.and_eq_true, decide_eq_true_eq]
  refine ⟨⟨⟨⟨prefixAccepted_of_entries h, by omega⟩, by omega⟩, by omega⟩, ?_, ?_⟩
  · rw [hchecked.scratch]
    rfl
  · rw [hchecked.writes, hlen, hcount]

/-! ## Refused plans -/

/-- an accepted move keeps what is written, and one that is no save writes its destination -/
theorem checkMove_written {state : CheckState} {move : Move} (h : checkMove fn state move = some state') :
    (∀ k, state.written k = true → state'.written k = true) ∧
      (0 ≤ move.destination → state'.written (move.destination - fn.parameterCount).toNat = true) := by
  rw [checkMove] at h
  by_cases hneg : move.destination < 0
  · refine ⟨fun k hk => ?_, fun hle => absurd hneg (by omega)⟩
    rw [if_pos hneg, checkSave] at h
    obtain ⟨-, h⟩ := ite_none_left_eq_some.1 h
    split at h
    · obtain ⟨-, h⟩ := ite_none_left_eq_some.1 h
      cases h
      exact hk
    · cases h
  · rw [if_neg hneg] at h
    obtain ⟨-, h⟩ := ite_none_left_eq_some.1 h
    cases htake : takeSource fn state move with
    | none => rw [htake] at h; cases h
    | some taken =>
      rw [htake] at h
      rw [ite_none_left_eq_some, ite_none_left_eq_some, some_inj] at h
      obtain ⟨-, -, rfl⟩ := h
      refine ⟨fun k hk => ?_, fun _ => Function.update_self ..⟩
      dsimp only
      rw [Function.update_apply]
      split_ifs
      · rfl
      · exact hk

theorem checkMove_overwritten {state : CheckState} {move : Move} (h : overwritten fn state move.source = true) :
    checkMove fn state move = none := by
  have hsource : (fn.parameterCount : ℤ) ≤ move.source := by
    simp only [overwritten, Bool.and_eq_true, decide_eq_true_eq] at h
    exact h.1.1
  have htake : takeSource fn state move = none := by
    rw [takeSource, if_neg (show move.source ≠ sourceScratch by rw [sourceScratch]; omega), if_pos h]
  have hsave : checkSave fn state (-move.destination - 1) move.source = none := by
    rw [checkSave]
    split_ifs
    · rfl
    split
    · rw [if_pos (.inr h)]
    · rfl
  rw [checkMove, htake, hsave, ite_self, ite_self]

theorem overwritten_mono {state : CheckState} (h : ∀ k, state.written k = true → state'.written k = true) {source : ℤ}
    (hover : overwritten fn state source = true) : overwritten fn state' source = true := by
  rw [overwritten, Bool.and_eq_true] at hover ⊢
  exact ⟨hover.1, h _ hover.2⟩

/-- as long as the plan is accepted, the second reader of a self-move's argument is still to come -/
def ReaderWaits (fn : BytecodeFunction) (self other : Snapshot) (s : Sched) : Prop :=
  ∀ state, s.plan.foldlM (checkMove fn) CheckState.start = some state →
    other ∈ s.remaining ∧ (self ∈ s.remaining ∨ overwritten fn state self.destination = true)

section ReaderWaits

variable {self other : Snapshot} (hentry : IsEntry fn self) (hself : self.source = some self.destination)
  (hreads : other.source = some self.destination) (hother : other.destination ≠ self.destination)
include hentry hself hreads hother

theorem Step.readerWaits (hstep : Step s s') (h : ReaderWaits fn self other s) : ReaderWaits fn self other s' := by
  intro state' hrun'
  obtain ⟨move, hplan⟩ : ∃ move, s'.plan = s.plan ++ [move] := by cases hstep <;> exact ⟨_, rfl⟩
  rw [hplan, foldlM_append] at hrun'
  obtain ⟨state, hrun, hmove⟩ := bind_eq_some_iff.1 hrun'
  obtain ⟨_, hmove, hpure⟩ := bind_eq_some_iff.1 hmove
  cases hpure
  obtain ⟨hwaits, hover⟩ := h state hrun
  have hkeep : overwritten fn state self.destination = true → overwritten fn state' self.destination = true :=
    overwritten_mono (checkMove_written hmove).1
  -- once the self-moves are over, the argument counts as written and its reader is refused
  have hafter : ∀ {next : Snapshot} {rest : List Snapshot}, s.remaining.Perm (next :: rest) → NoSelfMove s.remaining →
      (next = other → move.source = self.destination) →
      other ∈ rest ∧ (self ∈ rest ∨ overwritten fn state' self.destination = true) := by
    intro next rest split noSelf hnext
    have hover := hover.resolve_left fun hmem => noSelf self hmem hself
    refine ⟨(mem_cons.1 (split.subset hwaits)).resolve_left fun heq => ?_, .inr (hkeep hover)⟩
    rw [checkMove_overwritten (by rw [hnext heq.symm]; exact hover)] at hmove
    cases hmove
  cases hstep with
  | @self next rest split idle isSelf =>
    obtain rfl : directMove next = move := by simpa using hplan
    have hne : other ≠ next := by
      rintro rfl
      exact hother (Option.some.inj (isSelf.symm.trans hreads))
    refine ⟨(mem_cons.1 (split.subset hwaits)).resolve_left hne, ?_⟩
    rcases hover with hmem | hover
    · rcases mem_cons.1 (split.subset hmem) with rfl | hmem
      · obtain ⟨k, hk⟩ := hentry
        have hwritten := (checkMove_written hmove).2 (Int.natCast_nonneg _)
        have hrange := hk.inRange
        simp only [outOfRange, Bool.or_eq_false_iff, decide_eq_false_iff_not] at hrange
        refine .inr ?_
        simp only [overwritten, Bool.and_eq_true, decide_eq_true_eq]
        exact ⟨⟨by omega, by omega⟩, hwritten⟩
      · exact .inl hmem
    · exact .inr (hkeep hover)
  | ready split unread noSelf =>
    obtain rfl : directMove _ = move := by simpa using hplan
    refine hafter split noSelf ?_
    rintro rfl
    rw [directMove, hreads]
    rfl
  | save split idle hsource noSelf =>
    obtain rfl : saveMove _ _ = move := by simpa using hplan
    refine hafter split noSelf ?_
    rintro rfl
    cases hreads.symm.trans hsource
    rfl
  | restore saved unread => exact ⟨hwaits, hover.imp id hkeep⟩

theorem Steps.readerWaits (hsteps : Steps s s') (h : ReaderWaits fn self other s) : ReaderWaits fn self other s' := by
  induction hsteps with
  | refl => exact h
  | tail _ hstep ih => exact hstep.readerWaits hentry hself hreads hother ih

end ReaderWaits

theorem unshared_of_accepted (h : snapshotPrefix fn = .ok snapshots)
    (hplan : buildArgumentSnapshotPlan fn = .ok plan) (haccepts : acceptsPlan fn plan = true) :
    SelfMovesUnshared snapshots := by
  intro self hself hisSelf other hother hreads
  by_contra hne
  obtain ⟨done, plan', hrun, hsteps⟩ := schedule_steps (nodup_destinations h)
  rw [buildArgumentSnapshotPlan, h] at hplan
  obtain rfl : plan' = plan := Except.ok.inj (hrun.symm.trans hplan)
  have hstart : ReaderWaits fn self other ⟨snapshots, [], none, []⟩ := fun _ _ => ⟨hother, .inl hself⟩
  have hend := hsteps.readerWaits (prefix_entries h self hself) hisSelf hreads hne hstart
  rw [acceptsPlan, Bool.and_eq_true] at haccepts
  cases hstate : plan'.foldlM (checkMove fn) CheckState.start with
  | none => rw [hstate] at haccepts; cases haccepts.2
  | some state => cases (hend state hstate).1

/-- **The loader's plan check.** What it accepts is a parallel move, in the aliased window as in every other. The compiler
builds a plan for every prefix it takes, and the check accepts it exactly when no argument of a self-move has a second
reader. -/
theorem snapshot_check (fn : BytecodeFunction) :
    (∀ plan, acceptsPlan fn plan = true → ∀ (w : Window) (memory : Memory) (i : ℕ), (i : ℤ) < fn.argumentSnapshotCount →
      some ((executePlan w memory plan).1 (w.register (fn.parameterCount + i))) =
        fn.instructions[i]?.map (loadValue w memory)) ∧
    ∀ snapshots, snapshotPrefix fn = .ok snapshots → ∃ plan, buildArgumentSnapshotPlan fn = .ok plan ∧
      (acceptsPlan fn plan = true ↔ SelfMovesUnshared snapshots) := by
  refine ⟨fun _ h w memory _ hi => accepted_plan_executes h w memory hi, fun snapshots h => ?_⟩
  obtain ⟨-, plan, hrun, -⟩ := schedule_steps (nodup_destinations h)
  have hplan : buildArgumentSnapshotPlan fn = .ok plan := by
    rw [buildArgumentSnapshotPlan, h]
    exact hrun
  exact ⟨plan, hplan, unshared_of_accepted h hplan, fun hu => built_plan_accepted h hu hplan⟩

theorem snapshot_check_swap : snapshotPrefix swapFunction = .ok [⟨2, some 3⟩, ⟨3, some 2⟩, ⟨4, some 4⟩, ⟨5, none⟩] ∧
      SelfMovesUnshared [⟨2, some 3⟩, ⟨3, some 2⟩, ⟨4, some 4⟩, ⟨5, none⟩] ∧
      ∃ plan, buildArgumentSnapshotPlan swapFunction = .ok plan ∧ acceptsPlan swapFunction plan = true ∧
        ∀ (w : Window) (memory : Memory), some ((executePlan w memory plan).1 (w.register 2)) =
          some (loadValue w memory (.loadArgument 2 3)) := by
  refine ⟨by decide, by decide, ?_⟩
  obtain ⟨plan, hplan, haccepts⟩ :=
    (snapshot_check swapFunction).2 [⟨2, some 3⟩, ⟨3, some 2⟩, ⟨4, some 4⟩, ⟨5, none⟩] (by decide)
  have hall := (snapshot_check swapFunction).1 plan (haccepts.2 (by decide))
  exact ⟨plan, hplan, haccepts.2 (by decide), fun w memory => hall w memory 0 (by decide)⟩

def sharedSelfMove : BytecodeFunction := ⟨2, [.loadArgument 1 1, .loadArgument 2 1, .other], 1, 3, by decide⟩

/-- the compiler accepts the prefix, and the loader refuses the plan it builds -/
theorem shared_self_move_refused :
    ∃ plan, buildArgumentSnapshotPlan sharedSelfMove = .ok plan ∧ acceptsPlan sharedSelfMove plan = false :=
  ⟨[⟨1, 1⟩, ⟨2, 1⟩], by decide, by decide⟩

end Maligator.Frame
