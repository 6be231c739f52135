/-
Model of the collector's marking (`gc.c`): mark bytes, shading, tracing, the grey worklist and the registration of weak
collections.

`TraceEnv` is the heap as the tracer sees it: the strong values of each cell, its weak kind, and the rows of the WeakMaps.
`MarkState` is what marking changes. A cell is marked by its colour in a major collection and by its OLD bit in a minor one
(`isMarkedCell`). Tracing is done by one thread; statistics and verification are left out.

`Shaded st st' T P`: exactly the cells in T have been marked, those among them that were not marked before are now grey, and
the cells that were registered are in P.
-/
import Maligator.Value

namespace Maligator.Gc

open List Function

/-! ## State -/

/-- MAL_MARK_OLD and MAL_MARK_COLOR of a mark byte -/
structure MalMark where
  old : Bool
  color : Bool
  deriving DecidableEq

/-- the heap types whose weak edges the tracer registers -/
inductive WeakKind where
  | strong
  | weakMap
  | weakSet
  | weakRef
  | finalizationRegistry
  deriving DecidableEq

structure TraceEnv where
  /-- MAL_HEAP_STORAGE_IMMORTAL -/
  immortal : ℕ → Bool
  /-- the values that `mal_gc_trace_cell` marks -/
  strong : ℕ → List MalValue
  kind : ℕ → WeakKind
  /-- the entries of a WeakMap, in the order of its iterator -/
  rows : ℕ → List (MalValue × MalValue)
  /-- `mal_gc_worker_can_trace`, which only decides about the order within a batch -/
  workerCanTrace : ℕ → Bool

structure MarkState where
  mark : ℕ → MalMark
  markColor : Bool
  majorCollection : Bool
  /-- the worklist, its top first -/
  grey : List ℕ
  /-- `weak_maps`, `weak_sets`, `weak_refs` and `fin_regs`, by the kind of their members -/
  registered : WeakKind → List ℕ

/-! ## Marking -/

section Marking

variable (env : TraceEnv)

section

variable (st : MarkState) (cell : ℕ)

def managed (value : MalValue) : Bool := valueIsHeap value && !env.immortal (valueToHeap value)

def isMarkedCell : Bool :=
  if st.majorCollection then (st.mark cell).color == st.markColor else (st.mark cell).old

/-- a non-heap or immortal value is always live -/
def isMarked (value : MalValue) : Bool := !managed env value || isMarkedCell st (valueToHeap value)

def shade : MarkState :=
  if env.immortal cell || isMarkedCell st cell then st
  else
    let mark := if st.majorCollection then { st.mark cell with color := st.markColor }
      else { st.mark cell with old := true }
    { st with mark := update st.mark cell mark, grey := cell :: st.grey }

def markValue (value : MalValue) : MarkState :=
  if valueIsHeap value then shade env st (valueToHeap value) else st

def markValues (values : List MalValue) : MarkState := values.foldl (markValue env) st

def register : MarkState :=
  match env.kind cell with
  | .strong => st
  | kind => { st with registered := update st.registered kind (st.registered kind ++ [cell]) }

def traceCell : MarkState := register env (markValues env st (env.strong cell)) cell

def parkedTraceBatchSize : ℕ := 2048

/-- those that a worker could trace come last -/
def traceParkedBatch (batch : List ℕ) : MarkState :=
  (batch.filter (fun cell => !env.workerCanTrace cell) ++ batch.filter env.workerCanTrace).foldl (traceCell env) st

end

/-- at most `limit` cells; the count of those traced -/
def traceGreyBatch (limit : ℕ) (st : MarkState) : MarkState × ℕ :=
  let count := min (min st.grey.length limit) parkedTraceBatchSize
  (traceParkedBatch env { st with grey := st.grey.drop count } (st.grey.take count), count)

/-- (usize) -1 -/
def sizeMax : ℕ := 2 ^ 64 - 1

/-- `none` when the fuel runs out -/
def drain : ℕ → MarkState → Option MarkState
  | 0, _ => none
  | fuel + 1, st => if st.grey = [] then some st else drain fuel (traceGreyBatch env sizeMax st).1

end Marking

/-! ## What marking shades -/

section Shaded

variable (env : TraceEnv)

def Targets (values : List MalValue) (cell : ℕ) : Prop :=
  ∃ value ∈ values, managed env value = true ∧ valueToHeap value = cell

/-- the fields that marking leaves alone -/
structure SameMode (st st' : MarkState) : Prop where
  markColor : st'.markColor = st.markColor
  majorCollection : st'.majorCollection = st.majorCollection
  old : st.majorCollection = true → ∀ cell, (st'.mark cell).old = (st.mark cell).old
  color : st.majorCollection = false → ∀ cell, (st'.mark cell).color = (st.mark cell).color

def Registers (st st' : MarkState) (P : ℕ → Prop) : Prop :=
  ∀ kind, ∃ new, st'.registered kind = st.registered kind ++ new ∧
    ∀ cell ∈ new, P cell ∧ env.kind cell = kind ∧ kind ≠ .strong

structure Shaded (st st' : MarkState) (T P : ℕ → Prop) : Prop where
  mode : SameMode st st'
  marked : ∀ cell, isMarkedCell st' cell = true ↔ isMarkedCell st cell = true ∨ T cell
  grey : ∃ new : List ℕ, st'.grey = new ++ st.grey ∧ new.Nodup ∧
    ∀ cell, cell ∈ new ↔ T cell ∧ isMarkedCell st cell = false
  registers : Registers env st st' P

variable {env} {st st' st'' : MarkState} {T T' P P' : ℕ → Prop}

theorem SameMode.refl (st : MarkState) : SameMode st st := ⟨rfl, rfl, fun _ _ => rfl, fun _ _ => rfl⟩

theorem SameMode.trans (h : SameMode st st') (h' : SameMode st' st'') : SameMode st st'' where
  markColor := h'.markColor.trans h.markColor
  majorCollection := h'.majorCollection.trans h.majorCollection
  old hm cell := (h'.old (h.majorCollection.trans hm) cell).trans (h.old hm cell)
  color hm cell := (h'.color (h.majorCollection.trans hm) cell).trans (h.color hm cell)

theorem registers_same (h : st'.registered = st.registered) : Registers env st st' P :=
  fun kind => ⟨[], by rw [h, append_nil], nofun⟩

theorem Registers.trans (h : Registers env st st' P) (h' : Registers env st' st'' P') :
    Registers env st st'' fun cell => P cell ∨ P' cell := by
  intro kind
  obtain ⟨new, hnew, hmem⟩ := h kind
  obtain ⟨new', hnew', hmem'⟩ := h' kind
  refine ⟨new ++ new', by rw [hnew', hnew, append_assoc], fun cell hcell => ?_⟩
  rcases mem_append.1 hcell with hc | hc
  · exact ⟨.inl (hmem cell hc).1, (hmem cell hc).2⟩
  · exact ⟨.inr (hmem' cell hc).1, (hmem' cell hc).2⟩

theorem Registers.subset (h : Registers env st st' P) {kind : WeakKind} {cell : ℕ} (hc : cell ∈ st.registered kind) :
    cell ∈ st'.registered kind := by
  obtain ⟨new, hnew, -⟩ := h kind
  rw [hnew]
  exact mem_append_left _ hc

theorem Shaded.refl (st : MarkState) (hT : ∀ cell, T cell → isMarkedCell st cell = true) : Shaded env st st T P where
  mode := .refl st
  marked cell := ⟨Or.inl, fun h => h.elim id (hT cell)⟩
  grey := by
    refine ⟨[], rfl, nodup_nil, fun cell => ⟨nofun, fun h => ?_⟩⟩
    rw [hT cell h.1] at h
    exact absurd h.2 (by simp)
  registers := registers_same rfl

theorem Shaded.trans (h : Shaded env st st' T P) (h' : Shaded env st' st'' T' P') :
    Shaded env st st'' (fun cell => T cell ∨ T' cell) fun cell => P cell ∨ P' cell where
  mode := h.mode.trans h'.mode
  marked cell := by rw [h'.marked, h.marked, or_assoc]
  grey := by
    obtain ⟨new, hgrey, hnodup, hnew⟩ := h.grey
    obtain ⟨new', hgrey', hnodup', hnew'⟩ := h'.grey
    refine ⟨new' ++ new, by rw [hgrey', hgrey, append_assoc], ?_, fun cell => ?_⟩
    · refine List.nodup_append'.2 ⟨hnodup', hnodup, fun cell hc' hc => ?_⟩
      have hmarked := (h.marked cell).2 (.inr ((hnew cell).1 hc).1)
      rw [((hnew' cell).1 hc').2] at hmarked
      cases hmarked
    · rw [mem_append, hnew, hnew', ← Bool.not_eq_true, h.marked]
      by_cases hm : isMarkedCell st cell = true
      · simp [hm]
      · simp only [hm]
        tauto
  registers := h.registers.trans h'.registers

theorem Shaded.congr (h : Shaded env st st' T P) (hT : ∀ cell, T cell ↔ T' cell) (hP : ∀ cell, P cell → P' cell) :
    Shaded env st st' T' P' where
  mode := h.mode
  marked cell := by rw [h.marked, hT]
  grey := by
    obtain ⟨new, hgrey, hnodup, hnew⟩ := h.grey
    exact ⟨new, hgrey, hnodup, fun cell => by rw [hnew, hT]⟩
  registers kind := by
    obtain ⟨new, hnew, hmem⟩ := h.registers kind
    exact ⟨new, hnew, fun cell hc => ⟨hP cell (hmem cell hc).1, (hmem cell hc).2⟩⟩

theorem shade_shaded (env : TraceEnv) (st : MarkState) (cell : ℕ) :
    Shaded env st (shade env st cell) (fun c => c = cell ∧ env.immortal cell = false) fun _ => False := by
  unfold shade
  by_cases hskip : (env.immortal cell || isMarkedCell st cell) = true
  · rw [if_pos hskip]
    refine .refl st ?_
    rintro c ⟨rfl, himm⟩
    simpa [himm] using hskip
  rw [if_neg hskip]
  simp only [Bool.or_eq_true, not_or, Bool.not_eq_true] at hskip
  obtain ⟨himm, hmark⟩ := hskip
  refine ⟨⟨rfl, rfl, fun hm c => ?_, fun hm c => ?_⟩, fun c => ?_, ⟨[cell], rfl, by simp, fun c => ?_⟩, registers_same rfl⟩
  · by_cases hc : c = cell <;> simp [hc, hm]
  · by_cases hc : c = cell <;> simp [hc, hm]
  · by_cases hc : c = cell
    · cases hm : st.majorCollection <;> simp [isMarkedCell, hc, himm]
    · simp [isMarkedCell, hc]
  · rw [mem_singleton]
    constructor
    · rintro rfl
      exact ⟨⟨rfl, himm⟩, hmark⟩
    · exact fun h => h.1.1

theorem markValue_shaded (env : TraceEnv) (st : MarkState) (value : MalValue) :
    Shaded env st (markValue env st value) (Targets env [value]) fun _ => False := by
  have hT : ∀ cell, Targets env [value] cell ↔
      (cell = valueToHeap value ∧ env.immortal (valueToHeap value) = false) ∧ valueIsHeap value = true := by
    intro cell
    simp only [Targets, mem_singleton, managed, Bool.and_eq_true, Bool.not_eq_true']
    constructor
    · rintro ⟨_, rfl, ⟨hheap, himm⟩, rfl⟩
      exact ⟨⟨rfl, himm⟩, hheap⟩
    · rintro ⟨⟨rfl, himm⟩, hheap⟩
      exact ⟨value, rfl, ⟨hheap, himm⟩, rfl⟩
  unfold markValue
  split_ifs with hheap
  · exact (shade_shaded env st (valueToHeap value)).congr (fun cell => by rw [hT]; simp [hheap]) fun _ => id
  · exact .refl st fun cell h => absurd ((hT cell).1 h).2 hheap

/-- **Marking values** shades their managed cells. -/
theorem markValues_shaded (env : TraceEnv) (values : List MalValue) : ∀ st : MarkState,
    Shaded env st (markValues env st values) (Targets env values) fun _ => False := by
  induction values with
  | nil => exact fun st => .refl st fun cell h => by simp [Targets] at h
  | cons value values ih =>
    intro st
    refine ((markValue_shaded env st value).trans (ih _)).congr (fun cell => ?_) fun _ h => h.elim id id
    simp [Targets]

/-! ## What tracing registers -/

def Registered (env : TraceEnv) (st : MarkState) (cell : ℕ) : Prop :=
  env.kind cell ≠ .strong → cell ∈ st.registered (env.kind cell)

theorem register_spec (env : TraceEnv) (st : MarkState) (cell : ℕ) :
    Shaded env st (register env st cell) (fun _ => False) (· = cell) ∧ Registered env (register env st cell) cell := by
  unfold register Registered
  have hcase : ∀ kind, env.kind cell = kind → kind ≠ .strong →
      Shaded env st { st with registered := update st.registered kind (st.registered kind ++ [cell]) }
        (fun _ => False) (· = cell) := by
    intro kind hkind hne
    refine ⟨⟨rfl, rfl, fun _ _ => rfl, fun _ _ => rfl⟩, fun c => by simp [isMarkedCell], ⟨[], rfl, nodup_nil, by simp⟩,
      fun k => ?_⟩
    by_cases hk : k = kind
    · subst hk
      exact ⟨[cell], by simp, fun c hc => by simp at hc; exact ⟨hc, hc ▸ hkind, hne⟩⟩
    · exact ⟨[], by simp [update_of_ne hk], nofun⟩
  cases hkind : env.kind cell with
  | strong => exact ⟨.refl st fun _ => False.elim, absurd rfl⟩
  | weakMap | weakSet | weakRef | finalizationRegistry =>
    exact ⟨hcase _ hkind (by simp), fun _ => by simp⟩

/-- **Tracing** shades the strong values of a cell and registers it. -/
theorem traceCell_shaded (env : TraceEnv) (st : MarkState) (cell : ℕ) :
    Shaded env st (traceCell env st cell) (Targets env (env.strong cell)) (· = cell) ∧
      Registered env (traceCell env st cell) cell := by
  obtain ⟨hreg, hmem⟩ := register_spec env (markValues env st (env.strong cell)) cell
  refine ⟨((markValues_shaded env _ st).trans hreg).congr (fun c => ?_) fun c hc => ?_, hmem⟩
  · simp
  · exact hc.resolve_left id

theorem Registered.mono {cell : ℕ} (h : Registered env st cell) (hr : Registers env st st' P) : Registered env st' cell :=
  fun hk => hr.subset (h hk)

end Shaded

end Maligator.Gc
