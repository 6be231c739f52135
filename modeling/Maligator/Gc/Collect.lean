/-
Model of `mal_gc_collect_sync` (`gc.c`) up to its sweep: the roots are marked, in a minor collection the remembered cells
are traced, the worklist is drained batch by batch, and the weak pass follows. The roots are the values that
`mal_gc_scan_roots` marks. One thread traces; triggers and statistics are left out, and so are the scan starts that a minor
collection sets for the next one.

A minor collection traces the elements of an array from its scan start on only. What a collection keeps is stated with all
elements (`ArrayHeap.all`): the ones before the scan start refer to old cells (`Remembers.frontier`).

`Kept`: what marking would still reach, through cells that are not black. Tracing leaves it as it is, whatever the order
and the size of the batches (`keeps_traced`, `drain_keeps`).
-/
import Maligator.Gc.WeakClean

namespace Maligator.Gc

open Closure Weak List Function

/-! ## The synchronous collection -/

/-- `strong.edges` are what a cell refers to apart from the dense elements of an array -/
structure ArrayHeap where
  strong : StrongHeap
  elements : ℕ → List MalValue
  minorScanStart : ℕ → ℕ

def ArrayHeap.scanStart (arrays : ArrayHeap) (major : Bool) (cell : ℕ) : ℕ :=
  if major = false ∧ arrays.minorScanStart cell ≤ (arrays.elements cell).length then arrays.minorScanStart cell else 0

/-- what `mal_gc_trace_cell` marks -/
def ArrayHeap.traced (arrays : ArrayHeap) (major : Bool) : StrongHeap :=
  { arrays.strong with
    edges := fun cell => arrays.strong.edges cell ++ (arrays.elements cell).drop (arrays.scanStart major cell) }

/-- what a cell refers to -/
def ArrayHeap.all (arrays : ArrayHeap) : StrongHeap :=
  { arrays.strong with edges := fun cell => arrays.strong.edges cell ++ arrays.elements cell }

/-- the marking of `mal_gc_collect_sync`; a major one clears the remembered set and flips the colour -/
def collectSyncMark (env : TraceEnv) (fuel : ℕ) (major : Bool) (roots : List MalValue) (remembered : List ℕ)
    (st : MarkState) : Option MarkState :=
  let st := { st with
    grey := [], registered := fun _ => [], majorCollection := major, markColor := xor st.markColor major }
  let st := markValues env st roots
  drain env fuel (if major then st else remembered.foldl (traceCell env) st)

def collectSync (arrays : ArrayHeap) (freshMap : ℕ → ℕ → MalValue × MalValue) (freshSet : ℕ → ℕ → MalValue × Unit)
    (fuel : ℕ) (major : Bool) (roots : List MalValue) (remembered : List ℕ) (st : MarkState) (heap : WeakHeap) :
    Option (MarkState × WeakHeap) :=
  (collectSyncMark (weakEnv (arrays.traced major) heap) fuel major roots remembered st).bind fun st =>
    weakPass (arrays.traced major) freshMap freshSet fuel st heap

/-! ## What marking would still reach -/

section Kept

variable {env : TraceEnv} {st st' st'' : MarkState} {A M S T P : ℕ → Prop} {buffer buffer' buffer'' : List MalValue}

/-- The rules as a reader of the heap has them: an entry leads from its map to its value when the key is there, or is no
managed cell. -/
structure Follows (env : TraceEnv) (A M S : ℕ → Prop) : Prop where
  strong : ∀ {a b}, S a → A a → Targets env (env.strong a) b → S b
  row : ∀ {m d entry}, S m → M m → env.kind m = .weakMap → entry ∈ env.rows m → (∀ k, Targets env [entry.1] k → S k) →
    Targets env [entry.2] d → S d

theorem closed_iff_follows : Closed (traceRules env A M) S ↔ Follows env A M S := by
  constructor
  · refine fun h => ⟨fun ha hA hd => h.edge ha (.inl ⟨hA, hd⟩), fun {m d entry} hm hM hkind hentry hkey hd => ?_⟩
    cases hmanaged : managed env entry.1 with
    | false => exact h.edge hm (.inr ⟨hM, hkind, entry, hentry, hmanaged, hd⟩)
    | true =>
      have hk : Targets env [entry.1] (valueToHeap entry.1) := targets_singleton.2 ⟨hmanaged, rfl⟩
      exact h.join hm (hkey _ hk) ⟨hM, hkind, entry, hentry, hk, hd⟩
  · refine fun h => ⟨?_, ?_⟩
    · rintro a b ha (⟨hA, hd⟩ | ⟨hM, hkind, entry, hentry, hmanaged, hd⟩)
      · exact h.strong ha hA hd
      · refine h.row ha hM hkind hentry (fun k hk => ?_) hd
        rw [(targets_singleton.1 hk).1] at hmanaged
        cases hmanaged
    · rintro a b c ha hb ⟨hM, hkind, entry, hentry, hk, hd⟩
      refine h.row ha hM hkind hentry (fun k hk' => ?_) hd
      rwa [← (targets_singleton.1 hk').2, (targets_singleton.1 hk).2]

theorem Follows.weaken (h : Follows env (fun _ => True) (fun _ => True) S) : Follows env A M S :=
  ⟨fun ha _ => h.strong ha trivial, fun hm _ => h.row hm trivial⟩

/-- what follows from a set of cells along such rules -/
theorem follows_gen {init : ℕ → Prop} : Follows env A M (Gen (traceRules env A M) init) :=
  closed_iff_follows.1 ⟨fun ha he => .edge ha he, fun ha hb hj => .join ha hb hj⟩

def Kept (env : TraceEnv) (st : MarkState) (buffer : List MalValue) : ℕ → Prop :=
  Gen (activeRules env st) fun c => isMarkedCell st c = true ∨ Targets env buffer c

/-- the addresses that a value can hold -/
@[irreducible] def addresses : Finset ℕ := Finset.range (2 ^ 48)

theorem Targets.address {values : List MalValue} {c : ℕ} (h : Targets env values c) : c ∈ addresses := by
  obtain ⟨value, -, -, rfl⟩ := h
  unfold addresses
  exact Finset.mem_range.2 (Nat.mod_lt _ (by decide))

theorem Shaded.black (h : Shaded env st st' T P) (c : ℕ) : Black st' c ↔ Black st c := by
  obtain ⟨new, hgrey, -, hnew⟩ := h.grey
  unfold Black
  rw [h.marked, hgrey, mem_append, hnew]
  cases isMarkedCell st c <;> simp
  tauto

/-- what a stretch of marking leaves alone -/
structure Keeps (env : TraceEnv) (buffer buffer' : List MalValue) (st st' : MarkState) : Prop where
  start : WeakStart env st'
  major : st'.majorCollection = st.majorCollection
  address : ∀ c, isMarkedCell st' c = true → isMarkedCell st c = true ∨ c ∈ addresses
  registered : ∀ kind, st.registered kind ⊆ st'.registered kind
  traced : ∀ c, Black st' c → Black st c ∨ Registered env st' c
  kept : ∀ c, Kept env st' buffer' c ↔ Kept env st buffer c

theorem Keeps.trans (h : Keeps env buffer buffer' st st') (h' : Keeps env buffer' buffer'' st' st'') :
    Keeps env buffer buffer'' st st'' where
  start := h'.start
  major := h'.major.trans h.major
  address c hc := (h'.address c hc).elim (h.address c) .inr
  registered kind c hc := h'.registered kind (h.registered kind hc)
  traced c hc := by
    rcases h'.traced c hc with hb | hr
    · exact (h.traced c hb).imp id fun hr hk => h'.registered _ (hr hk)
    · exact .inr hr
  kept c := (h'.kept c).trans (h.kept c)

section Batch

variable (hs : WeakStart env st) {batch rest : List ℕ} (hgrey : st.grey = batch ++ rest)
  (hsh : Shaded env { st with grey := rest } st' T (· ∈ batch))
include hgrey

include hs in
theorem marked_of_batch {a : ℕ} (ha : a ∈ batch) : isMarkedCell st a = true ∧ ¬ Black st a := by
  have hg : a ∈ st.grey := hgrey ▸ mem_append_left rest ha
  exact ⟨hs.grey a hg, fun hb => hb.2 hg⟩

include hsh

theorem black_of_black {a : ℕ} (ha : Black st a) : Black st' a :=
  (hsh.black a).2 ⟨ha.1, fun hr => ha.2 (hgrey ▸ mem_append_right batch hr)⟩

theorem black_or_batch {a : ℕ} (ha : Black st' a) : Black st a ∨ a ∈ batch := by
  obtain ⟨hm, hr⟩ := (hsh.black a).1 ha
  by_cases hb : a ∈ batch
  · exact .inr hb
  · exact .inl ⟨hm, by rw [hgrey, mem_append, not_or]; exact ⟨hb, hr⟩⟩

include hs

/-- the maps that the rules speak of stay the same: a map is registered as it turns black -/
theorem active_batch (hreg : ∀ a ∈ batch, Registered env st' a) {m : ℕ} (hkind : env.kind m = .weakMap) :
    (¬ Black st' m ∨ m ∈ st'.registered .weakMap) ↔ (¬ Black st m ∨ m ∈ st.registered .weakMap) := by
  constructor
  · rintro (hb | hm)
    · exact .inl (mt (black_of_black hgrey hsh) hb)
    obtain ⟨new, hnew, hmem⟩ := hsh.registers .weakMap
    rw [hnew, mem_append] at hm
    exact hm.elim .inr fun hm => .inl (marked_of_batch hs hgrey (hmem m hm).1).2
  · rintro (hb | hm)
    · by_cases hb' : Black st' m
      · refine .inr (hkind ▸ hreg m ((black_or_batch hgrey hsh hb').resolve_left hb) ?_)
        rw [hkind]
        decide
      · exact .inl hb'
    · exact .inr (hsh.registers.subset hm)

theorem weakStart_batch : WeakStart env st' := by
  refine ⟨fun c hc => ?_, fun m hm => ?_⟩
  · obtain ⟨new, hgrey', -, hnew⟩ := hsh.grey
    rw [hgrey', mem_append, hnew] at hc
    exact (hsh.marked c).2 (hc.elim (fun h => .inr h.1) fun h => .inl (hs.grey c (hgrey ▸ mem_append_right batch h)))
  · obtain ⟨new, hnew, hmem⟩ := hsh.registers .weakMap
    rw [hnew, mem_append] at hm
    rcases hm with hm | hm
    · exact ⟨(hsh.marked m).2 (.inl (hs.maps m hm).1), (hs.maps m hm).2⟩
    · exact ⟨(hsh.marked m).2 (.inl (marked_of_batch hs hgrey (hmem m hm).1).1), (hmem m hm).2.1⟩

/-- **A batch** that is taken from the worklist and traced, with some of the buffer marked. -/
theorem keeps_traced
    (htr : ∀ a ∈ batch, (∀ b, Targets env (env.strong a) b → T b) ∧ Registered env st' a)
    (hT : ∀ b, T b → Kept env st buffer b ∧ b ∈ addresses)
    (hbuffer : ∀ b, Targets env buffer b → T b ∨ Targets env buffer' b)
    (hbuffer' : ∀ b, Targets env buffer' b → Kept env st buffer b) : Keeps env buffer buffer' st st' := by
  have hmarked : ∀ c, isMarkedCell st' c = true ↔ isMarkedCell st c = true ∨ T c := hsh.marked
  have hactive {m : ℕ} := active_batch (m := m) hs hgrey hsh fun a ha => (htr a ha).2
  refine ⟨weakStart_batch hs hgrey hsh, hsh.mode.majorCollection, fun c hc => ((hmarked c).1 hc).imp id fun h => (hT c h).2,
    fun kind c => hsh.registers.subset, fun c hc => (black_or_batch hgrey hsh hc).imp id fun hb => (htr c hb).2,
    fun c => ⟨?_, ?_⟩⟩
  · refine Gen.least (closed_iff_follows.2 ⟨fun ha hb hd => follows_gen.strong ha (mt (black_of_black hgrey hsh) hb) hd,
      fun hm hact hkind => follows_gen.row hm ((hactive hkind).1 hact) hkind⟩) ?_
    rintro c (hm | hc)
    · exact ((hmarked c).1 hm).elim (fun hm => .base (.inl hm)) fun hc => (hT c hc).1
    · exact hbuffer' c hc
  · refine Gen.least (closed_iff_follows.2 ⟨fun {a b} ha hb hd => ?_,
      fun hm hact hkind => follows_gen.row hm ((hactive hkind).2 hact) hkind⟩) ?_
    · by_cases hb' : Black st' a
      · exact .base (.inl ((hmarked b).2 (.inr ((htr a ((black_or_batch hgrey hsh hb').resolve_left hb)).1 b hd))))
      · exact follows_gen.strong ha hb' hd
    rintro c (hm | hc)
    · exact .base (.inl ((hmarked c).2 (.inl hm)))
    · exact .base ((hbuffer c hc).imp (fun hc => (hmarked c).2 (.inr hc)) id)

end Batch

/-- marking values that are kept anyway -/
theorem keeps_markValues (hs : WeakStart env st) (values : List MalValue)
    (hvalues : ∀ b, Targets env values b → Kept env st buffer b)
    (hbuffer : ∀ b, Targets env buffer b → Targets env values b ∨ Targets env buffer' b)
    (hbuffer' : ∀ b, Targets env buffer' b → Kept env st buffer b) :
    Keeps env buffer buffer' st (markValues env st values) :=
  keeps_traced hs (nil_append _).symm ((markValues_shaded env values st).congr (fun _ => Iff.rfl) fun _ => False.elim)
    (by simp) (fun b hb => ⟨hvalues b hb, hb.address⟩) hbuffer hbuffer'

theorem traceCells_shaded (env : TraceEnv) (cells : List ℕ) : ∀ st : MarkState,
    Shaded env st (cells.foldl (traceCell env) st) (fun b => ∃ a ∈ cells, Targets env (env.strong a) b) (· ∈ cells) ∧
      ∀ a ∈ cells, Registered env (cells.foldl (traceCell env) st) a := by
  induction cells with
  | nil => exact fun st => ⟨.refl st (by simp), by simp⟩
  | cons cell cells ih =>
    intro st
    obtain ⟨hfirst, hreg⟩ := traceCell_shaded env st cell
    obtain ⟨hrest, hregs⟩ := ih (traceCell env st cell)
    refine ⟨(hfirst.trans hrest).congr (fun b => by simp) (fun c => by simp), fun a ha => ?_⟩
    rcases mem_cons.1 ha with rfl | ha
    · exact hreg.mono hrest.registers
    · exact hregs a ha

theorem traceGreyBatch_keeps (hs : WeakStart env st) (limit : ℕ) (buffer : List MalValue) :
    Keeps env buffer buffer st (traceGreyBatch env limit st).1 ∧
      work addresses (traceGreyBatch env limit st).1 + (traceGreyBatch env limit st).2 = work addresses st := by
  unfold traceGreyBatch
  dsimp only
  set count := min (min st.grey.length limit) parkedTraceBatchSize with hcount
  have hlen : count ≤ st.grey.length := by omega
  have hgrey : st.grey = st.grey.take count ++ st.grey.drop count := (take_append_drop count st.grey).symm
  set cells := (st.grey.take count).filter (fun cell => !env.workerCanTrace cell) ++
    (st.grey.take count).filter env.workerCanTrace with hcells
  have hmem : ∀ a, a ∈ cells ↔ a ∈ st.grey.take count := by
    intro a
    rw [hcells, mem_append, mem_filter, mem_filter]
    cases env.workerCanTrace a <;> simp
  obtain ⟨hsh, hreg⟩ := traceCells_shaded env cells { st with grey := st.grey.drop count }
  constructor
  · refine keeps_traced hs hgrey (hsh.congr (fun _ => Iff.rfl) fun c => (hmem c).1)
      (fun a ha => ⟨fun b hb => ⟨a, (hmem a).2 ha, hb⟩, hreg a ((hmem a).2 ha)⟩) ?_ (fun _ => .inr) fun b hb => .base (.inr hb)
    rintro b ⟨a, ha, hb⟩
    have hg : a ∈ st.grey := mem_of_mem_take ((hmem a).1 ha)
    exact ⟨follows_gen.strong (.base (.inl (hs.grey a hg))) (fun hblack => hblack.2 hg) hb, hb.address⟩
  · have htraced := hsh.work_eq (L := addresses) fun b hb => hb.choose_spec.2.address
    have hpop : work addresses { st with grey := st.grey.drop count } =
        (st.grey.drop count).length + (addresses.filter fun c => isMarkedCell st c = false).card := rfl
    rw [hpop, length_drop] at htraced
    rw [traceParkedBatch, htraced, work]
    omega

/-- **Draining** ends, with nothing grey. -/
theorem drain_keeps (buffer : List MalValue) (fuel : ℕ) : ∀ {st : MarkState}, WeakStart env st → work addresses st < fuel →
    ∃ st', drain env fuel st = some st' ∧ Keeps env buffer buffer st st' ∧ st'.grey = [] ∧
      work addresses st' ≤ work addresses st := by
  induction fuel with
  | zero => exact fun _ h => absurd h (by omega)
  | succ fuel ih =>
    intro st hs hfuel
    rw [drain]
    split_ifs with hgrey
    · exact ⟨st, rfl, keeps_markValues hs [] (by simp [Targets]) (fun _ => .inr) fun b hb => .base (.inr hb), hgrey, le_rfl⟩
    obtain ⟨hkeeps, hwork⟩ := traceGreyBatch_keeps hs sizeMax buffer
    have hpos : 0 < (traceGreyBatch env sizeMax st).2 := by
      have := length_pos_of_ne_nil hgrey
      simp only [traceGreyBatch, parkedTraceBatchSize, sizeMax]
      omega
    obtain ⟨st', hrun, hkeeps', hgrey', hle⟩ := ih hkeeps.start (by omega)
    exact ⟨st', hrun, hkeeps.trans hkeeps', hgrey', by omega⟩

theorem kept_of_marked (h : ∀ b, Targets env buffer b → isMarkedCell st b = true) (c : ℕ) :
    Kept env st buffer c ↔ Derived env st c :=
  ⟨Gen.mono (fun _ _ => id) (fun _ _ _ => id) fun b hb => hb.elim id (h b),
    Gen.mono (fun _ _ => id) (fun _ _ _ => id) fun _ => .inl⟩

/-- the weak pass after a stretch of marking -/
theorem Keeps.weakMark (h : Keeps env buffer buffer' st st') (haddress : ∀ c, isMarkedCell st c = true → c ∈ addresses)
    (hbuffer : ∀ b, Targets env buffer' b → isMarkedCell st' b = true) (fuel : ℕ) (hfuel : work addresses st' + 2 ≤ fuel) :
    ∃ st'', weakMark env fuel st' = some st'' ∧ WeakFinal env st' st'' ∧
      ∀ c, isMarkedCell st'' c = true ↔ Kept env st buffer c := by
  have hkept : ∀ c, Derived env st' c ↔ Kept env st buffer c := fun c => (kept_of_marked hbuffer c).symm.trans (h.kept c)
  have hL : ∀ c, Derived env st' c → c ∈ addresses := by
    refine fun c => Gen.least (closed_iff_follows.2 ⟨?_, ?_⟩) fun c hc => (h.address c hc).elim (haddress c) id
    · exact fun _ _ hd => hd.address
    · exact fun _ _ _ _ _ hd => hd.address
  obtain ⟨st'', hrun, hfinal⟩ := weakMark_spec h.start hL hfuel
  exact ⟨st'', hrun, hfinal, fun c => (hfinal.marked c).trans (hkept c)⟩

end Kept

/-! ## Exactness of the synchronous collection -/

section CollectSync

/-- the remembered cells are old, and the old cells that are not remembered refer to old cells only -/
structure Unrecorded (env : TraceEnv) (old : ℕ → Prop) (remembered : List ℕ) : Prop where
  members : ∀ c ∈ remembered, old c
  address : ∀ c, old c → c ∈ addresses
  edges : ∀ c, old c → c ∉ remembered → ∀ d, Targets env (env.strong c) d → old d
  rows : ∀ c, old c → c ∉ remembered → ∀ entry ∈ env.rows c, ∀ d, Targets env [entry.2] d → old d

/-- all that can be reached, through strong edges and WeakMap entries -/
def Reachable (env : TraceEnv) (roots : ℕ → Prop) : ℕ → Prop := Gen (traceRules env (fun _ => True) fun _ => True) roots

/-- the roots are marked and the remembered cells traced, as if they were grey -/
theorem scanned_keeps {env : TraceEnv} {st : MarkState} (hs : WeakStart env st) (hgrey : st.grey = []) {remembered : List ℕ}
    (hold : Unrecorded env (fun c => isMarkedCell st c = true) remembered) (roots : List MalValue) :
    Keeps env roots [] { st with grey := remembered } (remembered.foldl (traceCell env) (markValues env st roots)) ∧
      ∀ c, Kept env { st with grey := remembered } roots c ↔
        Reachable env (fun c => isMarkedCell st c = true ∨ Targets env roots c) c := by
  obtain ⟨htraced, hreg⟩ := traceCells_shaded env remembered (markValues env st roots)
  have hsh := (markValues_shaded env roots st).trans htraced
  obtain ⟨mark, markColor, major, _, registered⟩ := st
  subst hgrey
  refine ⟨keeps_traced ⟨hold.members, hs.maps⟩ (append_nil remembered).symm
    (hsh.congr (fun _ => Iff.rfl) fun c hc => hc.resolve_left id)
    (fun a ha => ⟨fun b hb => .inr ⟨a, ha, hb⟩, hreg a ha⟩) ?_ (fun b hb => .inl (.inl hb)) (by simp [Targets]), fun c => ⟨?_, ?_⟩⟩
  · rintro b (hb | ⟨a, ha, hb⟩)
    · exact ⟨.base (.inr hb), hb.address⟩
    · exact ⟨follows_gen.strong (.base (.inl (hold.members a ha))) (fun hblack => hblack.2 ha) hb, hb.address⟩
  · exact Gen.least (closed_iff_follows.2 follows_gen.weaken) fun c hc => .base hc
  -- a black cell is old and not remembered, and so are the cells that it refers to
  · refine Gen.least (closed_iff_follows.2 ⟨fun {a b} ha _ hd => ?_, fun {m d entry} hm _ hkind hentry hkey hd => ?_⟩)
      fun c hc => .base hc
    · by_cases hb : Black ⟨mark, markColor, major, remembered, registered⟩ a
      · exact .base (.inl (hold.edges a hb.1 hb.2 b hd))
      · exact follows_gen.strong ha hb hd
    · by_cases hb : Black ⟨mark, markColor, major, remembered, registered⟩ m
      · exact .base (.inl (hold.rows m hb.1 hb.2 entry hentry d hd))
      · exact follows_gen.row hm (.inl hb) hkind hentry hkey hd

section Arrays

variable {arrays : ArrayHeap} {heap : WeakHeap} {major : Bool} {c d : ℕ}

theorem targets_append {env : TraceEnv} {values values' : List MalValue} :
    Targets env (values ++ values') d ↔ Targets env values d ∨ Targets env values' d := by
  simp only [Targets, mem_append, or_and_right, exists_or]

/-- **The elements before the scan start** are all that a trace leaves out. -/
theorem targets_all (major : Bool) : Targets (weakEnv arrays.all heap) ((weakEnv arrays.all heap).strong c) d ↔
    Targets (weakEnv arrays.all heap) ((arrays.elements c).take (arrays.scanStart major c)) d ∨
      Targets (weakEnv (arrays.traced major) heap) ((weakEnv (arrays.traced major) heap).strong c) d := by
  have hsplit := take_append_drop (arrays.scanStart major c) (arrays.elements c)
  obtain ⟨rest, hall, htraced⟩ : ∃ rest, (weakEnv arrays.all heap).strong c = arrays.strong.edges c ++
        ((arrays.elements c).take (arrays.scanStart major c) ++ (arrays.elements c).drop (arrays.scanStart major c)) ++ rest ∧
      (weakEnv (arrays.traced major) heap).strong c =
        arrays.strong.edges c ++ (arrays.elements c).drop (arrays.scanStart major c) ++ rest := ⟨_, by rw [hsplit]; rfl, rfl⟩
  have hsame : ∀ values, Targets (weakEnv (arrays.traced major) heap) values d ↔ Targets (weakEnv arrays.all heap) values d :=
    fun _ => Iff.rfl
  rw [hall, htraced, hsame]
  simp only [targets_append]
  tauto

/-- the remembered set and the scan starts: an old cell that is not remembered refers to old cells only, and so do the
elements of an array before its scan start -/
structure Remembers (arrays : ArrayHeap) (heap : WeakHeap) (old : ℕ → Prop) (remembered : List ℕ) : Prop where
  cells : Unrecorded (weakEnv arrays.all heap) old remembered
  frontier : ∀ c d, Targets (weakEnv arrays.all heap) ((arrays.elements c).take (arrays.scanStart false c)) d → old d

theorem scanStart_major : arrays.scanStart true c = 0 := if_neg (by simp)

/-- what is reached is the same without the elements that only lead back to where the search starts -/
theorem reachable_traced {start : ℕ → Prop}
    (h : ∀ c d, Targets (weakEnv arrays.all heap) ((arrays.elements c).take (arrays.scanStart major c)) d → start d) (c : ℕ) :
    Reachable (weakEnv (arrays.traced major) heap) start c ↔ Reachable (weakEnv arrays.all heap) start c := by
  constructor
  · refine Gen.least (closed_iff_follows.2 ⟨fun ha _ hd => ?_, fun hm _ => ?_⟩) fun c hc => .base hc
    · exact follows_gen.strong ha trivial ((targets_all major).2 (.inr hd))
    · exact follows_gen.row hm trivial
  · refine Gen.least (closed_iff_follows.2 ⟨fun {a b} ha _ hd => ?_, fun hm _ => ?_⟩) fun c hc => .base hc
    · rcases (targets_all major).1 hd with hd | hd
      · exact .base (h a b hd)
      · exact follows_gen.strong ha trivial hd
    · exact follows_gen.row hm trivial

variable {st : MarkState} {remembered : List ℕ} {roots : List MalValue}

/-- the state in which a collection starts to mark -/
def collectStart (major : Bool) (st : MarkState) : MarkState :=
  { st with grey := [], registered := fun _ => [], majorCollection := major, markColor := xor st.markColor major }

theorem collectSyncMark_eq (env : TraceEnv) (fuel : ℕ) : collectSyncMark env fuel major roots remembered st = drain env fuel
    ((if major then [] else remembered).foldl (traceCell env) (markValues env (collectStart major st) roots)) := by
  cases major <;> rfl

section

variable (hcolor : major = true → ∀ c, (st.mark c).color = st.markColor)
include hcolor

theorem marked_collectStart (c : ℕ) :
    isMarkedCell (collectStart major st) c = true ↔ major = false ∧ (st.mark c).old = true := by
  cases major with
  | false => simp [isMarkedCell, collectStart]
  | true => simp [isMarkedCell, collectStart, hcolor rfl c]

variable (hold : major = false → Remembers arrays heap (fun c => (st.mark c).old = true) remembered)
include hold

theorem unrecorded_collectStart : Unrecorded (weakEnv (arrays.traced major) heap)
    (fun c => isMarkedCell (collectStart major st) c = true) (if major then [] else remembered) := by
  simp only [marked_collectStart hcolor]
  cases major with
  | false =>
    obtain ⟨members, address, edges, rows⟩ := (hold rfl).cells
    refine ⟨by simpa using members, by simpa using address, fun c hc hno d hd => ⟨rfl, ?_⟩, fun c hc hno entry hentry d hd => ⟨rfl, ?_⟩⟩
    · exact edges c hc.2 hno d ((targets_all false).2 (.inr hd))
    · exact rows c hc.2 hno entry hentry d hd
  | true => constructor <;> simp

omit hcolor in
/-- the elements that are not traced lead to old cells, which are there from the start -/
theorem frontier_start (c d : ℕ)
    (hd : Targets (weakEnv arrays.all heap) ((arrays.elements c).take (arrays.scanStart major c)) d) :
    (major = false ∧ (st.mark d).old = true) ∨ Targets (weakEnv arrays.all heap) roots d := by
  cases major with
  | false => exact .inl ⟨rfl, (hold rfl).frontier c d hd⟩
  | true =>
    rw [scanStart_major, take_zero] at hd
    obtain ⟨_, hmem, -⟩ := hd
    cases hmem

end

end Arrays

/-- **A synchronous collection** ends. The marked cells are then those that can be reached from the roots, and in a minor
collection the old ones and what they reach, through all elements of an array; every weak collection among those that were
not old, or are remembered, is registered, and the registered ones are cleaned. -/
theorem collectSync_exact (arrays : ArrayHeap) (freshMap : ℕ → ℕ → MalValue × MalValue)
    (freshSet : ℕ → ℕ → MalValue × Unit) (symbols : MalValue → Bool) (major : Bool) (roots : List MalValue)
    (remembered : List ℕ) (st : MarkState) (heap : WeakHeap) (hwf : heap.WellFormed symbols)
    (hcolor : major = true → ∀ c, (st.mark c).color = st.markColor)
    (hold : major = false → Remembers arrays heap (fun c => (st.mark c).old = true) remembered) :
    ∃ bound, ∀ fuel ≥ bound, ∃ st' heap',
      collectSync arrays freshMap freshSet fuel major roots remembered st heap = some (st', heap') ∧
      (∀ c, isMarkedCell st' c = true ↔ Reachable (weakEnv arrays.all heap)
        (fun c => (major = false ∧ (st.mark c).old = true) ∨ Targets (weakEnv arrays.all heap) roots c) c) ∧
      (∀ c, isMarkedCell st' c = true → (major = false → (st.mark c).old = true → c ∈ remembered) →
        Registered (weakEnv arrays.all heap) st' c) ∧
      WeakCleaned (weakEnv arrays.all heap) symbols st' heap heap' := by
  set env := weakEnv (arrays.traced major) heap with henv
  have hold₀ := unrecorded_collectStart hcolor hold
  have hs₀ : WeakStart env (collectStart major st) := ⟨by simp [collectStart], by simp [collectStart]⟩
  obtain ⟨hscanned, hkept⟩ := scanned_keeps hs₀ rfl hold₀ roots
  set st₁ := (if major then [] else remembered).foldl (traceCell env) (markValues env (collectStart major st) roots)
  refine ⟨work addresses st₁ + 2, fun fuel hfuel => ?_⟩
  obtain ⟨st₂, hdrain, hdrained, -, hwork⟩ := drain_keeps [] fuel hscanned.start (by omega)
  have hkeeps := hscanned.trans hdrained
  obtain ⟨st₃, hmark, hfinal, hmarked⟩ := hkeeps.weakMark hold₀.address (by simp [Targets]) fuel (by omega)
  obtain ⟨heap', hpass, hclean⟩ := weakClean_spec freshMap freshSet hwf hmark
  refine ⟨st₃, heap', ?_, fun c => ?_, fun c hc hyoung => ?_,
    ⟨hclean.weakMap, hclean.weakSet, hclean.weakRef, hclean.finReg, hclean.jobs, hclean.wellFormed⟩⟩
  · rw [collectSync, collectSyncMark_eq, hdrain]
    exact hpass
  · rw [hmarked, hkept, ← reachable_traced (frontier_start hold)]
    simp only [marked_collectStart hcolor]
    exact Iff.rfl
  · by_cases hb : Black st₂ c
    · rcases hkeeps.traced c hb with ⟨hm, hr⟩ | hr
      · obtain ⟨hminor, ho⟩ := (marked_collectStart hcolor c).1 hm
        exact absurd (by simpa [hminor] using hyoung hminor ho) hr
      · exact hr.mono hfinal.registers
    · exact (hfinal.traced c hc hb).2

/-- an old array at 8 with the old cell 24 before its scan start and the young key 32 after it, and a WeakMap at 16 -/
def cardedHeap : ArrayHeap where
  strong := ⟨fun _ => false, fun _ => [], fun cell => if cell = 16 then .weakMap else .strong, fun _ => false⟩
  elements cell := if cell = 8 then [objectAt 24, objectAt 32] else []
  minorScanStart cell := if cell = 8 then 1 else 0

def youngKey : MarkState := ⟨fun cell => ⟨decide (cell ∈ [8, 16, 24]), true⟩, true, false, [], fun _ => []⟩

theorem youngKey_old {c : ℕ} : (youngKey.mark c).old = true ↔ c = 8 ∨ c = 16 ∨ c = 24 := by
  simp [youngKey]

theorem cardedHeap_strong (heap : WeakHeap) (c : ℕ) : (weakEnv cardedHeap.all heap).strong c = cardedHeap.elements c := by
  have hkind : cardedHeap.strong.kind c ≠ .finalizationRegistry := by
    simp only [cardedHeap]
    split_ifs <;> decide
  show [] ++ cardedHeap.elements c ++ (if cardedHeap.strong.kind c = .finalizationRegistry then _ else []) = _
  rw [if_neg hkind, append_nil, nil_append]

/-- of the old cells only that at 24 is not remembered -/
theorem cardedHeap_remembers {heap : WeakHeap} (hrows : (weakEnv cardedHeap.all heap).rows 24 = []) :
    Remembers cardedHeap heap (fun c => (youngKey.mark c).old = true) [8, 16] := by
  have honly : ∀ c, (youngKey.mark c).old = true → c ∉ [8, 16] → c = 24 := fun c hc hno => by
    rcases youngKey_old.1 hc with rfl | rfl | rfl
    · simp at hno
    · simp at hno
    · rfl
  refine ⟨⟨fun c hc => ?_, fun c hc => ?_, fun c hc hno d hd => ?_, fun c hc hno entry hrow => ?_⟩, fun c d hd => ?_⟩
  · exact youngKey_old.2 (by simp at hc; tauto)
  · unfold addresses
    rw [Finset.mem_range]
    rcases youngKey_old.1 hc with rfl | rfl | rfl <;> decide
  · rw [cardedHeap_strong, honly c hc hno] at hd
    simp [cardedHeap, Targets] at hd
  · rw [honly c hc hno, hrows] at hrow
    cases hrow
  · by_cases hc : c = 8
    · subst hc
      rw [show (cardedHeap.elements 8).take (cardedHeap.scanStart false 8) = [objectAt 24] by decide] at hd
      exact youngKey_old.2 (.inr (.inr ((targets_singleton.1 hd).2.symm.trans (by decide))))
    · simp [cardedHeap, hc, Targets] at hd

/-- **A minor collection** from the remembered array and the remembered map: the key at 32 is found behind the scan start, so
the map's value at 48 is kept, and the map is registered. -/
theorem collectSync_exact_carded : ∃ map : MalWeakMapObject, (objectAt 32, objectAt 48) ∈ rowsOf map.entries ∧
    ∃ bound, ∀ fuel ≥ bound, ∃ st' heap', collectSync cardedHeap (fun _ _ => (0, 0)) (fun _ _ => (0, ())) fuel false [] [8, 16] youngKey
        ⟨fun cell => if cell = 16 then map else ⟨none⟩, fun _ => ⟨none⟩, fun _ => valueUndefined, fun _ => ⟨valueUndefined, []⟩, []⟩ =
          some (st', heap') ∧
      isMarkedCell st' 32 = true ∧ isMarkedCell st' 48 = true ∧ 16 ∈ st'.registered .weakMap := by
  have hok : WeakMapCallOk (fun _ => false) ⟨none⟩ (.set (objectAt 32) (objectAt 48)) := ⟨by decide, by decide⟩
  obtain ⟨map, -, hmap⟩ := weakMapStep_represents (represents_none fun _ => false) (fun _ => (0, 0)) hok
  have hentry : (objectAt 32, objectAt 48) ∈ rowsOf map.entries := hmap.rows.mem_iff.2 (mem_singleton_self _)
  refine ⟨map, hentry, ?_⟩
  set heap : WeakHeap := ⟨fun cell => if cell = 16 then map else ⟨none⟩, fun _ => ⟨none⟩, fun _ => valueUndefined,
    fun _ => ⟨valueUndefined, []⟩, []⟩ with hheap
  have hwf : heap.WellFormed fun _ => false := by
    refine ⟨fun c => ?_, fun c => ⟨[], represents_none _⟩⟩
    by_cases hc : c = 16
    · exact ⟨_, by simp only [hheap, if_pos hc]; exact hmap⟩
    · exact ⟨[], by simp only [hheap, if_neg hc]; exact represents_none _⟩
  have hremembers := cardedHeap_remembers (show (weakEnv cardedHeap.all heap).rows 24 = [] from rfl)
  obtain ⟨bound, hbound⟩ := collectSync_exact cardedHeap (fun _ _ => (0, 0)) (fun _ _ => (0, ())) (fun _ => false) false [] [8, 16]
    youngKey heap hwf (by simp) fun _ => hremembers
  refine ⟨bound, fun fuel hfuel => ?_⟩
  obtain ⟨st', heap', hrun, hmarked, hregistered, -⟩ := hbound fuel hfuel
  have hroot : ∀ c, (youngKey.mark c).old = true → isMarkedCell st' c = true := fun c hc => (hmarked c).2 (.base (.inl ⟨rfl, hc⟩))
  have hkey : isMarkedCell st' 32 = true := by
    refine (hmarked 32).2 (follows_gen.strong (a := 8) (.base (.inl ⟨rfl, rfl⟩)) trivial ?_)
    rw [cardedHeap_strong]
    exact ⟨objectAt 32, by decide, rfl, by decide⟩
  refine ⟨st', heap', hrun, hkey, ?_, hregistered 16 (hroot 16 rfl) (fun _ _ => by simp) (show WeakKind.weakMap ≠ .strong by decide)⟩
  refine (hmarked 48).2 (follows_gen.row (m := 16) (.base (.inl ⟨rfl, rfl⟩)) trivial rfl hentry (fun k hk => ?_)
    (targets_singleton.2 ⟨rfl, by decide⟩))
  rw [← (targets_singleton.1 hk).2]
  exact (hmarked 32).1 hkey

end CollectSync

end Maligator.Gc
