/-
The weak pass as a whole: the marking loop, and what it then does to the weak collections.

`WeakHeap` holds the WeakMaps and WeakSets with their storage, the targets of the WeakRefs, the FinalizationRegistries and
the queue of reaction jobs. `weakEnv` is the heap as the tracer sees it: the entries of a WeakMap come from its storage, the
callback and the held values of a registry are strong.
-/
import Maligator.Gc.WeakFixpoint
import Maligator.Weak.Refinement

namespace Maligator.Gc

open Closure Weak List Function

/-! ## State -/

structure MalFinRegCell where
  target : MalValue
  heldValue : MalValue
  unregisterToken : MalValue
  deriving DecidableEq

structure MalFinalizationRegistryObject where
  cleanupCallback : MalValue
  cells : List MalFinRegCell

/-- the arguments of `mal_vm_enqueue_reaction_job` -/
structure ReactionJob where
  handler : MalValue
  rejected : Bool
  resolve : MalValue
  reject : MalValue
  argument : MalValue
  deriving DecidableEq

structure WeakHeap where
  weakMap : ℕ → MalWeakMapObject
  weakSet : ℕ → MalWeakSetObject
  /-- the target of a WeakRef -/
  weakRef : ℕ → MalValue
  finReg : ℕ → MalFinalizationRegistryObject
  jobs : List ReactionJob

/-- the cells without their weak parts: storage, strong edges and heap types -/
structure StrongHeap where
  immortal : ℕ → Bool
  edges : ℕ → List MalValue
  kind : ℕ → WeakKind
  workerCanTrace : ℕ → Bool

def weakEnv (strong : StrongHeap) (heap : WeakHeap) : TraceEnv where
  immortal := strong.immortal
  strong cell := strong.edges cell ++
    if strong.kind cell = .finalizationRegistry then
      (heap.finReg cell).cleanupCallback :: (heap.finReg cell).cells.map MalFinRegCell.heldValue
    else []
  kind := strong.kind
  rows cell := rowsOf (heap.weakMap cell).entries
  workerCanTrace := strong.workerCanTrace

/-! ## Cleaning -/

section Cleaning

variable (marked : MalValue → Bool)

def retainAll {C : Type} (retain : ℕ → C → Option C) : List ℕ → (ℕ → C) → Option (ℕ → C)
  | [], collections => some collections
  | cell :: cells, collections =>
    match retain cell (collections cell) with
    | none => none
    | some collection => retainAll retain cells (update collections cell collection)

def clearTargets (refs : List ℕ) (target : ℕ → MalValue) : ℕ → MalValue :=
  refs.foldl (fun target ref =>
    if !marked (target ref) then update target ref valueUndefined else target) target

def cleanCells (callback : MalValue) : List MalFinRegCell → List MalFinRegCell × List ReactionJob
  | [] => ([], [])
  | cell :: rest =>
    let (cells, jobs) := cleanCells callback rest
    if !marked cell.target then (cells, ⟨callback, false, valueUndefined, valueUndefined, cell.heldValue⟩ :: jobs)
    else if valueIsHeap cell.unregisterToken && !marked cell.unregisterToken then
      ({ cell with unregisterToken := valueUndefined } :: cells, jobs)
    else (cell :: cells, jobs)

def cleanRegistry (s : (ℕ → MalFinalizationRegistryObject) × List ReactionJob) (registry : ℕ) :
    (ℕ → MalFinalizationRegistryObject) × List ReactionJob :=
  let (cells, jobs) := cleanCells marked (s.1 registry).cleanupCallback (s.1 registry).cells
  (update s.1 registry { s.1 registry with cells := cells }, s.2 ++ jobs)

end Cleaning

/-- `fresh` is what rebuilt storage happens to hold -/
def weakPass (strong : StrongHeap) (freshMap : ℕ → ℕ → MalValue × MalValue) (freshSet : ℕ → ℕ → MalValue × Unit)
    (fuel : ℕ) (st : MarkState) (heap : WeakHeap) : Option (MarkState × WeakHeap) :=
  (weakMark (weakEnv strong heap) fuel st).bind fun st =>
    let marked := isMarked (weakEnv strong heap) st
    (retainAll (fun cell map => (weakMapStorageRetain (freshMap cell) map marked).map Prod.fst)
      (st.registered .weakMap) heap.weakMap).bind fun weakMap =>
    (retainAll (fun cell set => (weakSetStorageRetain (freshSet cell) set marked).map Prod.fst)
      (st.registered .weakSet) heap.weakSet).map fun weakSet =>
    let weakRef := clearTargets marked (st.registered .weakRef) heap.weakRef
    let (finReg, jobs) := (st.registered .finalizationRegistry).foldl (cleanRegistry marked) (heap.finReg, heap.jobs)
    (st, ⟨weakMap, weakSet, weakRef, finReg, jobs⟩)

/-! ## The loops -/

section Loops

variable {marked : MalValue → Bool}

theorem keptRows_keptRows {V : Type} (keep : MalValue → Bool) (l : List (MalValue × V)) :
    keptRows keep (keptRows keep l) = keptRows keep l := by
  simp [keptRows]

/-- **Retaining** in registered collections: each then stands for its rows with marked keys, the others are untouched. -/
theorem retainAll_spec {C V : Type} [DecidableEq V] {entries : C → Option (MalWeakStorage V)}
    {symbols : MalValue → Bool} {retain : ℕ → C → Option C}
    (hretain : ∀ cell c l, Represents symbols (entries c) l → ∃ c', retain cell c = some c' ∧ Represents symbols (entries c') (keptRows marked l))
    (cells : List ℕ) (collections : ℕ → C)
    (hrep : ∀ cell ∈ cells, ∃ l, Represents symbols (entries (collections cell)) l) :
    ∃ collections', retainAll retain cells collections = some collections' ∧
      (∀ cell ∈ cells, ∀ l, Represents symbols (entries (collections cell)) l →
        Represents symbols (entries (collections' cell)) (keptRows marked l)) ∧
      ∀ cell ∉ cells, collections' cell = collections cell := by
  induction cells generalizing collections with
  | nil => exact ⟨collections, rfl, nofun, fun _ _ => rfl⟩
  | cons cell cells ih =>
    obtain ⟨l₀, hl₀⟩ := hrep cell mem_cons_self
    obtain ⟨c', hc', hrep'⟩ := hretain cell _ l₀ hl₀
    have hall : ∀ l, Represents symbols (entries (collections cell)) l → Represents symbols (entries c') (keptRows marked l) := by
      intro l hl
      obtain ⟨c'', hc'', hrep''⟩ := hretain cell _ l hl
      rw [hc', Option.some.injEq] at hc''
      exact hc'' ▸ hrep''
    obtain ⟨collections', hrun, hkept, hother⟩ := ih (update collections cell c') fun d hd => by
      by_cases hdc : d = cell
      · subst hdc
        exact ⟨_, by rw [update_self]; exact hrep'⟩
      · rw [update_of_ne hdc]
        exact hrep d (mem_cons_of_mem cell hd)
    refine ⟨collections', by rw [retainAll, hc']; exact hrun, fun d hd l hl => ?_, fun d hd => ?_⟩
    · by_cases hdc : d = cell
      · subst hdc
        by_cases hmem : d ∈ cells
        · have := hkept d hmem (keptRows marked l) (by rw [update_self]; exact hall l hl)
          rwa [keptRows_keptRows] at this
        · rw [hother d hmem, update_self]
          exact hall l hl
      · refine hkept d ((mem_cons.1 hd).resolve_left hdc) l ?_
        rwa [update_of_ne hdc]
    · rw [mem_cons, not_or] at hd
      rw [hother d hd.2, update_of_ne hd.1]

/-- **WeakRefs** with an unmarked target are cleared. -/
theorem clearTargets_spec (refs : List ℕ) : ∀ (target : ℕ → MalValue) (ref : ℕ),
    clearTargets marked refs target ref =
      if ref ∈ refs ∧ marked (target ref) = false then valueUndefined else target ref := by
  induction refs with
  | nil => exact fun target ref => by simp [clearTargets]
  | cons r refs ih =>
    intro target ref
    have hstep : ∀ t : ℕ → MalValue, clearTargets marked (r :: refs) t =
        clearTargets marked refs (if !marked (t r) then update t r valueUndefined else t) := fun _ => rfl
    rw [hstep, ih]
    cases hm : marked (target r) with
    | true =>
      by_cases hr : ref = r <;> simp [hr, hm]
    | false =>
      by_cases hr : ref = r <;> simp [hr, hm]

/-! ## Registries -/

def keptCell (marked : MalValue → Bool) (cell : MalFinRegCell) : MalFinRegCell :=
  if valueIsHeap cell.unregisterToken && !marked cell.unregisterToken then { cell with unregisterToken := valueUndefined }
  else cell

def cleaned (marked : MalValue → Bool) (registry : MalFinalizationRegistryObject) : MalFinalizationRegistryObject :=
  { registry with cells := (registry.cells.filter fun cell => marked cell.target).map (keptCell marked) }

def deadJobs (marked : MalValue → Bool) (registry : MalFinalizationRegistryObject) : List ReactionJob :=
  (registry.cells.filter fun cell => !marked cell.target).map fun cell =>
    ⟨registry.cleanupCallback, false, valueUndefined, valueUndefined, cell.heldValue⟩

theorem cleanCells_eq (marked : MalValue → Bool) (registry : MalFinalizationRegistryObject) :
    cleanCells marked registry.cleanupCallback registry.cells =
      ((cleaned marked registry).cells, deadJobs marked registry) := by
  obtain ⟨callback, cells⟩ := registry
  unfold cleaned deadJobs
  induction cells with
  | nil => rfl
  | cons cell cells ih =>
    rw [cleanCells, ih]
    cases htarget : marked cell.target with
    | false => simp [htarget]
    | true =>
      by_cases htoken : (valueIsHeap cell.unregisterToken && !marked cell.unregisterToken) = true <;>
        simp [htarget, htoken, keptCell]

theorem marked_keptCell_target (cell : MalFinRegCell) : (keptCell marked cell).target = cell.target := by
  unfold keptCell
  split_ifs <;> rfl

theorem keptCell_keptCell (cell : MalFinRegCell) : keptCell marked (keptCell marked cell) = keptCell marked cell := by
  by_cases htoken : (valueIsHeap cell.unregisterToken && !marked cell.unregisterToken) = true
  · simp [keptCell, htoken]
  · simp [keptCell, htoken]

theorem cleaned_cleaned (registry : MalFinalizationRegistryObject) :
    cleaned marked (cleaned marked registry) = cleaned marked registry ∧ deadJobs marked (cleaned marked registry) = [] := by
  have hall : ∀ cell ∈ (cleaned marked registry).cells, marked cell.target = true := by
    intro cell hcell
    obtain ⟨cell', hcell', rfl⟩ := mem_map.1 hcell
    rw [marked_keptCell_target]
    exact (mem_filter.1 hcell').2
  constructor
  · conv_lhs => rw [cleaned]
    rw [filter_eq_self.2 hall]
    simp [cleaned, keptCell_keptCell]
  · rw [deadJobs, filter_eq_nil_iff.2 fun cell hcell => by simp [hall cell hcell], map_nil]

/-- **Registries.** Each registered one is cleaned, and each dead target of one gives one job. -/
theorem cleanRegistries_spec (marked : MalValue → Bool) (registries : List ℕ) : ∀ s : (ℕ → MalFinalizationRegistryObject) × List ReactionJob,
    (∀ r, (registries.foldl (cleanRegistry marked) s).1 r = if r ∈ registries then cleaned marked (s.1 r) else s.1 r) ∧
      ∃ new, (registries.foldl (cleanRegistry marked) s).2 = s.2 ++ new ∧
        (new : Multiset ReactionJob) = ∑ r ∈ registries.toFinset, (deadJobs marked (s.1 r) : Multiset ReactionJob) := by
  induction registries with
  | nil => exact fun s => ⟨fun r => by simp, [], by simp⟩
  | cons registry registries ih =>
    intro s
    have hstep : cleanRegistry marked s registry =
        (update s.1 registry (cleaned marked (s.1 registry)), s.2 ++ deadJobs marked (s.1 registry)) := by
      rw [cleanRegistry, cleanCells_eq]
      rfl
    obtain ⟨hregs, new, hjobs, hnew⟩ := ih (cleanRegistry marked s registry)
    rw [foldl_cons]
    rw [hstep] at hregs hjobs hnew ⊢
    dsimp only at hregs hjobs hnew
    refine ⟨fun r => ?_, deadJobs marked (s.1 registry) ++ new, by rw [hjobs, append_assoc], ?_⟩
    · rw [hregs]
      by_cases hr : r = registry
      · subst hr
        simp [(cleaned_cleaned (s.1 r)).1]
      · simp [hr]
    · have hzero : (deadJobs marked (update s.1 registry (cleaned marked (s.1 registry)) registry) :
          Multiset ReactionJob) = 0 := by
        rw [update_self, (cleaned_cleaned _).2]
        rfl
      rw [← Multiset.coe_add, hnew, toFinset_cons, ← Finset.add_sum_erase _ _ (Finset.mem_insert_self registry _),
        Finset.erase_insert_eq_erase, ← Finset.sum_erase registries.toFinset hzero]
      congr 1
      refine Finset.sum_congr rfl fun r hr => ?_
      rw [update_of_ne (Finset.ne_of_mem_erase hr)]

end Loops

/-! ## The pass -/

section Pass

variable (strong : StrongHeap) (freshMap : ℕ → ℕ → MalValue × MalValue) (freshSet : ℕ → ℕ → MalValue × Unit)

/-- every WeakMap and WeakSet is a storage that its operations have built -/
structure WeakHeap.WellFormed (symbols : MalValue → Bool) (heap : WeakHeap) : Prop where
  weakMap : ∀ cell, ∃ l, Represents symbols (heap.weakMap cell).entries l
  weakSet : ∀ cell, ∃ l, Represents symbols (heap.weakSet cell).entries l

/-- what was traced before the pass: a strong edge of a black cell leads to a cell that the rest of the marking derives,
and so does an entry of a black WeakMap that is not registered -/
def Finished (env : TraceEnv) (st : MarkState) : Prop :=
  (∀ a b, Black st a → Targets env (env.strong a) b → Derived env st b) ∧
  (∀ m, Black st m → env.kind m = .weakMap → m ∉ st.registered .weakMap → ∀ entry ∈ env.rows m,
    ∀ d, Targets env [entry.2] d → Derived env st d)

variable {strong} {symbols : MalValue → Bool} {st : MarkState} {heap : WeakHeap}

theorem derived_iff {env : TraceEnv} (hf : Finished env st) (c : ℕ) :
    Derived env st c ↔ Gen (traceRules env (fun _ => True) fun _ => True) (fun c => isMarkedCell st c = true) c := by
  constructor
  · intro h
    refine Gen.mono ?_ ?_ (fun _ => id) h
    · exact fun a b h => h.imp (fun h => ⟨trivial, h.2⟩) fun h => ⟨trivial, h.2⟩
    · exact fun a b c h => ⟨trivial, h.2⟩
  · refine Gen.least ⟨fun {a b} ha h => ?_, fun {a b c} ha hb h => ?_⟩ fun _ h => .base h
    · rcases h with ⟨-, hd⟩ | ⟨-, hkind, entry, hentry, hkey, hd⟩
      · by_cases hblack : Black st a
        · exact hf.1 a b hblack hd
        · exact .edge ha (.inl ⟨hblack, hd⟩)
      by_cases hactive : ¬ Black st a ∨ a ∈ st.registered .weakMap
      · exact .edge ha (.inr ⟨hactive, hkind, entry, hentry, hkey, hd⟩)
      · rw [not_or, not_not] at hactive
        exact hf.2 a hactive.1 hkind hactive.2 entry hentry b hd
    · obtain ⟨-, hkind, entry, hentry, hk, hd⟩ := h
      by_cases hactive : ¬ Black st a ∨ a ∈ st.registered .weakMap
      · exact .join ha hb ⟨hactive, hkind, entry, hentry, hk, hd⟩
      · rw [not_or, not_not] at hactive
        exact hf.2 a hactive.1 hkind hactive.2 entry hentry c hd

theorem rows_retained {V : Type} [DecidableEq V] {entries entries' : Option (MalWeakStorage V)}
    {l : List (MalValue × V)} {marked : MalValue → Bool} (hr : Represents symbols entries l)
    (hr' : Represents symbols entries' (keptRows marked l)) :
    (rowsOf entries').Perm ((rowsOf entries).filter fun p => marked p.1) :=
  hr'.rows.trans (hr.rows.filter _).symm

/-- what the pass leaves of the weak collections -/
structure WeakCleaned (env : TraceEnv) (symbols : MalValue → Bool) (st : MarkState) (heap heap' : WeakHeap) : Prop where
  weakMap : ∀ m ∈ st.registered .weakMap, (rowsOf (heap'.weakMap m).entries).Perm
    ((rowsOf (heap.weakMap m).entries).filter fun p => isMarked env st p.1)
  weakSet : ∀ s ∈ st.registered .weakSet, (rowsOf (heap'.weakSet s).entries).Perm
    ((rowsOf (heap.weakSet s).entries).filter fun p => isMarked env st p.1)
  weakRef : ∀ r ∈ st.registered .weakRef,
    heap'.weakRef r = if isMarked env st (heap.weakRef r) then heap.weakRef r else valueUndefined
  finReg : ∀ r ∈ st.registered .finalizationRegistry, heap'.finReg r = cleaned (isMarked env st) (heap.finReg r)
  jobs : ∃ new, heap'.jobs = heap.jobs ++ new ∧ (new : Multiset ReactionJob) =
    ∑ r ∈ (st.registered .finalizationRegistry).toFinset,
      (deadJobs (isMarked env st) (heap.finReg r) : Multiset ReactionJob)
  wellFormed : heap'.WellFormed symbols

theorem weakClean_spec (freshMap : ℕ → ℕ → MalValue × MalValue) (freshSet : ℕ → ℕ → MalValue × Unit)
    (hwf : heap.WellFormed symbols) {fuel : ℕ} {st' : MarkState} (hmark : weakMark (weakEnv strong heap) fuel st = some st') :
    ∃ heap', weakPass strong freshMap freshSet fuel st heap = some (st', heap') ∧
      WeakCleaned (weakEnv strong heap) symbols st' heap heap' := by
  set marked := isMarked (weakEnv strong heap) st' with hmarked
  have hretainMap : ∀ cell (map : MalWeakMapObject) l, Represents symbols map.entries l →
      ∃ map', (weakMapStorageRetain (freshMap cell) map marked).map Prod.fst = some map' ∧
        Represents symbols map'.entries (keptRows marked l) := by
    intro cell map l hr
    obtain ⟨entries', hret, hr'⟩ := hr.retain (freshMap cell) marked
    exact ⟨⟨entries'⟩, by rw [weakMapStorageRetain, hret]; rfl, hr'⟩
  have hretainSet : ∀ cell (set : MalWeakSetObject) l, Represents symbols set.entries l →
      ∃ set', (weakSetStorageRetain (freshSet cell) set marked).map Prod.fst = some set' ∧
        Represents symbols set'.entries (keptRows marked l) := by
    intro cell set l hr
    obtain ⟨entries', hret, hr'⟩ := hr.retain (freshSet cell) marked
    exact ⟨⟨entries'⟩, by rw [weakSetStorageRetain, hret]; rfl, hr'⟩
  obtain ⟨weakMap, hmaps, hmapKept, hmapOther⟩ :=
    retainAll_spec hretainMap (st'.registered .weakMap) heap.weakMap fun cell _ => hwf.weakMap cell
  obtain ⟨weakSet, hsets, hsetKept, hsetOther⟩ :=
    retainAll_spec hretainSet (st'.registered .weakSet) heap.weakSet fun cell _ => hwf.weakSet cell
  obtain ⟨hregs, hjobs⟩ := cleanRegistries_spec marked (st'.registered .finalizationRegistry) (heap.finReg, heap.jobs)
  have hrun : weakPass strong freshMap freshSet fuel st heap =
      some (st', ⟨weakMap, weakSet, clearTargets marked (st'.registered .weakRef) heap.weakRef,
        ((st'.registered .finalizationRegistry).foldl (cleanRegistry marked) (heap.finReg, heap.jobs)).1,
        ((st'.registered .finalizationRegistry).foldl (cleanRegistry marked) (heap.finReg, heap.jobs)).2⟩) := by
    rw [weakPass, hmark, Option.bind_some]
    dsimp only
    rw [hmaps, Option.bind_some, hsets, Option.map_some]
  refine ⟨_, hrun, ?_, ?_, ?_, ?_, hjobs, ?_, ?_⟩
  · intro m hm
    obtain ⟨l, hl⟩ := hwf.weakMap m
    exact rows_retained hl (hmapKept m hm l hl)
  · intro s hs
    obtain ⟨l, hl⟩ := hwf.weakSet s
    exact rows_retained hl (hsetKept s hs l hl)
  · intro r hr
    refine (clearTargets_spec _ _ _).trans ?_
    cases hm : marked (heap.weakRef r) <;> simp [hr, ← hmarked, hm]
  · intro r hr
    exact (hregs r).trans (if_pos hr)
  · intro cell
    obtain ⟨l, hl⟩ := hwf.weakMap cell
    by_cases hc : cell ∈ st'.registered .weakMap
    · exact ⟨_, hmapKept cell hc l hl⟩
    refine ⟨l, ?_⟩
    dsimp only
    rw [hmapOther cell hc]
    exact hl
  · intro cell
    obtain ⟨l, hl⟩ := hwf.weakSet cell
    by_cases hc : cell ∈ st'.registered .weakSet
    · exact ⟨_, hsetKept cell hc l hl⟩
    refine ⟨l, ?_⟩
    dsimp only
    rw [hsetOther cell hc]
    exact hl

/-- **The weak pass.** It ends, and the marked cells are then the least set that contains those marked before and is closed
under what was left to trace; that is, under all strong edges and WeakMap entries, if the black cells were finished. The
registered weak collections are cleaned accordingly. -/
theorem weakPass_exact (strong : StrongHeap) (freshMap : ℕ → ℕ → MalValue × MalValue)
    (freshSet : ℕ → ℕ → MalValue × Unit) (symbols : MalValue → Bool) (st : MarkState) (heap : WeakHeap)
    (hwf : heap.WellFormed symbols) (hs : WeakStart (weakEnv strong heap) st)
    (L : Finset ℕ) (hL : ∀ c, Derived (weakEnv strong heap) st c → c ∈ L) (fuel : ℕ) (hfuel : work L st + 2 ≤ fuel) :
    ∃ st' heap', weakPass strong freshMap freshSet fuel st heap = some (st', heap') ∧
      (∀ c, isMarkedCell st' c = true ↔ Derived (weakEnv strong heap) st c) ∧
      (Finished (weakEnv strong heap) st → ∀ c, isMarkedCell st' c = true ↔
        Gen (traceRules (weakEnv strong heap) (fun _ => True) fun _ => True) (fun c => isMarkedCell st c = true) c) ∧
      (∀ c, isMarkedCell st' c = true → ¬ Black st c → Registered (weakEnv strong heap) st' c) ∧
      WeakCleaned (weakEnv strong heap) symbols st' heap heap' := by
  obtain ⟨st', hmark, hfinal⟩ := weakMark_spec hs hL hfuel
  obtain ⟨heap', hpass, hclean⟩ := weakClean_spec freshMap freshSet hwf hmark
  exact ⟨st', heap', hpass, hfinal.marked, fun hf c => (hfinal.marked c).trans (derived_iff hf c),
    fun c hc hb => (hfinal.traced c hc hb).2, hclean⟩

def objectAt (cell : ℕ) : MalValue := 0xFFFD000000000000#64 + BitVec.ofNat 64 cell

/-- a WeakMap at 16 and an object at 8 that holds the key at 32 -/
def keyHeap : StrongHeap where
  immortal _ := false
  edges cell := if cell = 8 then [objectAt 32] else []
  kind cell := if cell = 16 then .weakMap else .strong
  workerCanTrace _ := false

def greyPair : MarkState where
  mark cell := ⟨true, cell == 8 || cell == 16⟩
  markColor := true
  majorCollection := true
  grey := [8, 16]
  registered _ := []

/-- the map is only discovered by the pass, its key is only marked by the pass, and the value at 48 is kept -/
theorem weakPass_exact_discovered : ∃ (map : MalWeakMapObject) (st' : MarkState) (heap' : WeakHeap),
    weakPass keyHeap (fun _ _ => (0, 0)) (fun _ _ => (0, ())) 10 greyPair
        ⟨fun _ => map, fun _ => ⟨none⟩, fun _ => valueUndefined, fun _ => ⟨valueUndefined, []⟩, []⟩ = some (st', heap') ∧
      (objectAt 32, objectAt 48) ∈ rowsOf map.entries ∧ isMarkedCell st' 48 = true := by
  -- the pass of the heap that the first call makes
  have hpass : ((weakMapStep (fun _ => false) ⟨none⟩ (fun _ => (0, 0)) (.set (objectAt 32) (objectAt 48))).bind fun r =>
      (weakPass keyHeap (fun _ _ => (0, 0)) (fun _ _ => (0, ())) 10 greyPair
        ⟨fun _ => r.1, fun _ => ⟨none⟩, fun _ => valueUndefined, fun _ => ⟨valueUndefined, []⟩, []⟩).map
          fun p => isMarkedCell p.1 48) = some true := by decide
  have hok : WeakMapCallOk (fun _ => false) ⟨none⟩ (.set (objectAt 32) (objectAt 48)) := ⟨by decide, by decide⟩
  obtain ⟨map, hstep, hmap⟩ := weakMapStep_represents (represents_none fun _ => false) (fun _ => (0, 0)) hok
  rw [hstep, Option.bind_some] at hpass
  have hrows : ∀ entry, entry ∈ rowsOf map.entries ↔ entry = (objectAt 32, objectAt 48) := by
    intro entry
    rw [hmap.rows.mem_iff]
    exact mem_singleton
  set heap : WeakHeap :=
    ⟨fun _ => map, fun _ => ⟨none⟩, fun _ => valueUndefined, fun _ => ⟨valueUndefined, []⟩, []⟩ with hheap
  have hstrong : ∀ a b, Targets (weakEnv keyHeap heap) ((weakEnv keyHeap heap).strong a) b → b = 32 := by
    intro a b hb
    have hkind : keyHeap.kind a ≠ .finalizationRegistry := by
      unfold keyHeap
      dsimp only
      split_ifs <;> decide
    have hlist : (weakEnv keyHeap heap).strong a = if a = 8 then [objectAt 32] else [] := by
      simp only [weakEnv, if_neg hkind, append_nil]
      rfl
    rw [hlist] at hb
    split_ifs at hb
    · exact (targets_singleton.1 hb).2.symm.trans (by decide)
    · simp [Targets] at hb
  have hvalue : ∀ m b, ∀ entry ∈ (weakEnv keyHeap heap).rows m, Targets (weakEnv keyHeap heap) [entry.2] b → b = 48 := by
    intro m b entry hentry hb
    rw [(hrows entry).1 hentry] at hb
    exact (targets_singleton.1 hb).2.symm
  have hL : ∀ c, Derived (weakEnv keyHeap heap) greyPair c → c ∈ ({8, 16, 32, 48} : Finset ℕ) := by
    intro c hc
    refine Gen.least ⟨?_, ?_⟩ ?_ hc
    · rintro a b - (⟨-, hb⟩ | ⟨-, -, entry, hentry, -, hb⟩)
      · simp [hstrong a b hb]
      · simp [hvalue a b entry hentry hb]
    · rintro a b c - - ⟨-, -, entry, hentry, -, hb⟩
      simp [hvalue a c entry hentry hb]
    · intro a ha
      have : a = 8 ∨ a = 16 := by simpa [greyPair, isMarkedCell] using ha
      rcases this with rfl | rfl <;> simp
  have hwf : heap.WellFormed fun _ => false := ⟨fun _ => ⟨_, hmap⟩, fun _ => ⟨[], represents_none _⟩⟩
  have hs : WeakStart (weakEnv keyHeap heap) greyPair := ⟨by decide, fun _ h => by cases h⟩
  obtain ⟨st', heap', hrun, -⟩ := weakPass_exact keyHeap (fun _ _ => (0, 0)) (fun _ _ => (0, ()))
    (fun _ => false) greyPair heap hwf hs {8, 16, 32, 48} hL 10 (by decide)
  rw [hrun, Option.map_some, Option.some.injEq] at hpass
  exact ⟨map, st', heap', hrun, (hrows _).2 rfl, hpass⟩

end Pass

end Maligator.Gc
