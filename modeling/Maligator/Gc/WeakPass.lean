/-
Model of the marking loop of the weak pass (`mal_gc_weak_pass`).

The entries of every registered WeakMap are looked at once. The value of an entry with a marked key is marked; any other
entry waits in a chained index under its key, and is activated when that key is taken from the grey worklist. Tracing may
register further WeakMaps, which are looked at in turn.
-/
import Maligator.Gc.Marking
import Maligator.Lib.ChainedIndex
import Maligator.Lib.Closure

namespace Maligator.Gc

open ChainedIndex Closure

/-! ## The loop -/

def ephemeronBucket (key bucketCount : ℕ) : ℕ :=
  let bits : BitVec 64 := BitVec.ofNat 64 key
  let bits := (bits ^^^ (bits >>> 30)) * 0xbf58476d1ce4e5b9#64
  let bits := (bits ^^^ (bits >>> 27)) * 0x94d049bb133111eb#64
  let bits := bits ^^^ (bits >>> 31)
  bits.toNat &&& (bucketCount - 1)

section Loop

variable (env : TraceEnv)

def indexEntry (s : MarkState × Index ℕ MalValue) (entry : MalValue × MalValue) : MarkState × Index ℕ MalValue :=
  let (key, value) := entry
  if isMarked env s.1 key then (markValue env s.1 value, s.2)
  else if valueIsHeap value && decide (valueToHeap value ≠ valueToHeap key) && !isMarked env s.1 value then
    (s.1, wait ephemeronBucket s.2 (valueToHeap key) value)
  else s

def indexMap (s : MarkState × Index ℕ MalValue) (map : ℕ) : MarkState × Index ℕ MalValue :=
  (env.rows map).foldl (indexEntry env) s

/-- the maps from `indexedMaps` on -/
def indexMaps (st : MarkState) (index : Index ℕ MalValue) (indexedMaps : ℕ) : MarkState × Index ℕ MalValue :=
  ((st.registered .weakMap).drop indexedMaps).foldl (indexMap env) (st, index)

def activateValue (st : MarkState) (value : MalValue) : MarkState :=
  if isMarked env st value then st else markValue env st value

def weakMarkLoop : ℕ → MarkState → Index ℕ MalValue → ℕ → Option MarkState
  | 0, _, _, _ => none
  | fuel + 1, st, index, indexedMaps =>
    if indexedMaps < (st.registered .weakMap).length ∨ st.grey ≠ [] then
      let s := indexMaps env st index indexedMaps
      let indexedMaps := (st.registered .weakMap).length
      match s.1.grey with
      | [] => weakMarkLoop fuel s.1 s.2 indexedMaps
      | cell :: grey =>
        match activate ephemeronBucket (activateValue env) s.2 { s.1 with grey := grey } cell with
        | none => none
        | some (index, st) => weakMarkLoop fuel (traceCell env st cell) index indexedMaps
    else some st

def weakMark (fuel : ℕ) (st : MarkState) : Option MarkState := weakMarkLoop env fuel st .empty 0

end Loop

/-! ## The rules -/

/-- Strong edges of the cells in A, and the entries of the WeakMaps in M: with a key that is not managed, the map alone
keeps the value alive. -/
def traceRules (env : TraceEnv) (A M : ℕ → Prop) : Rules ℕ where
  edge a b := (A a ∧ Targets env (env.strong a) b) ∨
    (M a ∧ env.kind a = .weakMap ∧ ∃ entry ∈ env.rows a, managed env entry.1 = false ∧ Targets env [entry.2] b)
  join a b c := M a ∧ env.kind a = .weakMap ∧ ∃ entry ∈ env.rows a, Targets env [entry.1] b ∧ Targets env [entry.2] c

def Black (st : MarkState) (cell : ℕ) : Prop := isMarkedCell st cell = true ∧ cell ∉ st.grey

/-- what is left to do: the edges of the cells that are not black, and the maps that are registered or not black -/
def activeRules (env : TraceEnv) (st : MarkState) : Rules ℕ :=
  traceRules env (fun c => ¬ Black st c) fun m => ¬ Black st m ∨ m ∈ st.registered .weakMap

theorem targets_singleton {env : TraceEnv} {value : MalValue} {cell : ℕ} :
    Targets env [value] cell ↔ managed env value = true ∧ valueToHeap value = cell := by
  simp [Targets]

theorem isMarked_iff {env : TraceEnv} {st : MarkState} {value : MalValue} :
    isMarked env st value = true ↔ ∀ cell, Targets env [value] cell → isMarkedCell st cell = true := by
  simp only [targets_singleton]
  constructor
  · rintro h cell ⟨hm, rfl⟩
    simpa [isMarked, hm] using h
  · intro h
    cases hm : managed env value with
    | false => simp [isMarked, hm]
    | true => simp [isMarked, h _ ⟨hm, rfl⟩]

theorem ephemeronBucket_lt (key n : ℕ) (hn : 0 < n) : ephemeronBucket key n < n :=
  Nat.lt_of_le_of_lt Nat.and_le_right (by omega)

end Maligator.Gc
