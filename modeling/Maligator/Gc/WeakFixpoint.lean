/-
The fixpoint that the marking loop of the weak pass computes.

`WeakInv`, relative to the state in which the loop starts: every mark is derivable; every marked cell that was not black at
the start is grey, or traced and registered; and every entry of a map that was looked at is done, or waits for a key that
is unmarked or grey. A key that has been taken from the worklist and not yet been traced is neither (`pending`).

`indexEntry_inv`, `activate_inv`, `trace_inv`: the steps of the loop.
-/
import Maligator.Gc.WeakPass

namespace Maligator.Gc

open ChainedIndex Closure List

section Invariant

variable (env : TraceEnv) (st₀ : MarkState)

def Derived : ℕ → Prop := Gen (activeRules env st₀) fun c => isMarkedCell st₀ c = true

def EntryDone (pending : ℕ → Prop) (st : MarkState) (index : Index ℕ MalValue) (entry : MalValue × MalValue) : Prop :=
  ∀ d, Targets env [entry.2] d → isMarkedCell st d = true ∨
    ∃ k, Targets env [entry.1] k ∧
      (k = d ∨ ((k, entry.2) ∈ waiting index ∧ (isMarkedCell st k = false ∨ k ∈ st.grey ∨ pending k)))

structure WeakInv (pending : ℕ → Prop) (st : MarkState) (index : Index ℕ MalValue) : Prop where
  mode : SameMode st₀ st
  sound : ∀ c, isMarkedCell st c = true → Derived env st₀ c
  start : ∀ c, isMarkedCell st₀ c = true → isMarkedCell st c = true
  grey : ∀ c ∈ st.grey, isMarkedCell st c = true ∧ ¬ Black st₀ c
  traced : ∀ c, isMarkedCell st c = true → ¬ Black st₀ c → c ∉ st.grey → ¬ pending c →
    (∀ d, Targets env (env.strong c) d → isMarkedCell st d = true) ∧ Registered env st c
  registers : Registers env st₀ st fun c => Derived env st₀ c ∧ ¬ Black st₀ c
  waits : ∀ p ∈ waiting index, ∃ m ∈ st.registered .weakMap, ∃ entry ∈ env.rows m,
    Targets env [entry.1] p.1 ∧ entry.2 = p.2
  index : Inv ephemeronBucket index

/-- the state in which the loop starts: grey cells are marked, registered maps are maps and marked -/
structure WeakStart : Prop where
  grey : ∀ c ∈ st₀.grey, isMarkedCell st₀ c = true
  maps : ∀ m ∈ st₀.registered .weakMap, isMarkedCell st₀ m = true ∧ env.kind m = .weakMap

variable {env st₀} {pending : ℕ → Prop} {st st' : MarkState} {index : Index ℕ MalValue}

theorem weakInv_start (h : WeakStart env st₀) : WeakInv env st₀ (fun _ => False) st₀ .empty where
  mode := .refl st₀
  sound c hc := .base hc
  start c hc := hc
  grey c hc := ⟨h.grey c hc, fun hb => hb.2 hc⟩
  traced c hc hb hg := absurd ⟨hc, hg⟩ hb
  registers := registers_same rfl
  waits p hp := by simp [waiting, Index.empty] at hp
  index := inv_empty

variable {m cell : ℕ} {T P : ℕ → Prop} {L : Finset ℕ}

theorem WeakInv.map_active (hs : WeakStart env st₀) (h : WeakInv env st₀ pending st index)
    (hm : m ∈ st.registered .weakMap) :
    Derived env st₀ m ∧ env.kind m = .weakMap ∧ (¬ Black st₀ m ∨ m ∈ st₀.registered .weakMap) := by
  obtain ⟨new, hnew, hmem⟩ := h.registers .weakMap
  rw [hnew, mem_append] at hm
  rcases hm with hm | hm
  · exact ⟨.base (hs.maps m hm).1, (hs.maps m hm).2, .inr hm⟩
  · exact ⟨(hmem m hm).1.1, (hmem m hm).2.1, .inl (hmem m hm).1.2⟩

theorem WeakInv.shaded (h : WeakInv env st₀ pending st index) (hsh : Shaded env st st' T P)
    (hT : ∀ c, T c → Derived env st₀ c) (hP : ∀ c, P c → Derived env st₀ c ∧ ¬ Black st₀ c) :
    WeakInv env st₀ pending st' index := by
  obtain ⟨new, hgrey, -, hnew⟩ := hsh.grey
  have hmono : ∀ c, isMarkedCell st c = true → isMarkedCell st' c = true := fun c hc => (hsh.marked c).2 (.inl hc)
  refine ⟨h.mode.trans hsh.mode, fun c hc => ?_, fun c hc => hmono c (h.start c hc), fun c hc => ?_, ?_, ?_, ?_, h.index⟩
  · exact ((hsh.marked c).1 hc).elim (h.sound c) (hT c)
  · rw [hgrey, mem_append] at hc
    rcases hc with hc | hc
    · refine ⟨(hsh.marked c).2 (.inr ((hnew c).1 hc).1), fun hb => ?_⟩
      have := h.start c hb.1
      rw [((hnew c).1 hc).2] at this
      cases this
    · exact ⟨hmono c (h.grey c hc).1, (h.grey c hc).2⟩
  · intro c hc hb hg hp
    rw [hgrey, mem_append, not_or, hnew] at hg
    have hbefore : isMarkedCell st c = true := by
      rcases (hsh.marked c).1 hc with hm | hm
      · exact hm
      · by_contra hn
        exact hg.1 ⟨hm, by simpa using hn⟩
    obtain ⟨htargets, hreg⟩ := h.traced c hbefore hb hg.2 hp
    exact ⟨fun d hd => hmono d (htargets d hd), hreg.mono hsh.registers⟩
  · intro kind
    obtain ⟨new', hnew', hmem⟩ := (h.registers.trans hsh.registers) kind
    exact ⟨new', hnew', fun c hc => ⟨(hmem c hc).1.elim id (hP c), (hmem c hc).2⟩⟩
  · intro p hp
    obtain ⟨m, hm, hrow⟩ := h.waits p hp
    exact ⟨m, hsh.registers.subset hm, hrow⟩

variable {entry : MalValue × MalValue}

theorem EntryDone.shaded (h : EntryDone env pending st index entry)
    (hsh : Shaded env st st' T P) : EntryDone env pending st' index entry := by
  obtain ⟨new, hgrey, -, hnew⟩ := hsh.grey
  intro d hd
  rcases h d hd with hm | ⟨k, hk, hk'⟩
  · exact .inl ((hsh.marked d).2 (.inl hm))
  refine .inr ⟨k, hk, hk'.imp id fun ⟨hw, hstate⟩ => ⟨hw, ?_⟩⟩
  rcases hstate with hun | hg | hp
  · -- the key may have been marked just now, and then it is grey
    by_cases hT : T k
    · exact .inr (.inl (by rw [hgrey]; exact mem_append_left _ ((hnew k).2 ⟨hT, hun⟩)))
    refine .inl ?_
    rw [← Bool.not_eq_true, hsh.marked]
    simp [hun, hT]
  · exact .inr (.inl (by rw [hgrey]; exact mem_append_right _ hg))
  · exact .inr (.inr hp)

/-! ## Looking at the maps -/

def Advances (env : TraceEnv) (st₀ st st' : MarkState) : Prop :=
  ∃ T, Shaded env st st' T (fun _ => False) ∧ ∀ c, T c → Derived env st₀ c

theorem Advances.refl (st : MarkState) : Advances env st₀ st st := ⟨fun _ => False, .refl st fun _ => False.elim, fun _ => False.elim⟩

theorem Advances.trans {st'' : MarkState} (h : Advances env st₀ st st') (h' : Advances env st₀ st' st'') :
    Advances env st₀ st st'' := by
  obtain ⟨T, hsh, hT⟩ := h
  obtain ⟨T', hsh', hT'⟩ := h'
  exact ⟨_, (hsh.trans hsh').congr (fun _ => Iff.rfl) fun _ h => h.elim id id, fun c hc => hc.elim (hT c) (hT' c)⟩

theorem Advances.registered (h : Advances env st₀ st st') : st'.registered = st.registered := by
  obtain ⟨T, hsh, -⟩ := h
  funext kind
  obtain ⟨new, hnew, hmem⟩ := hsh.registers kind
  have : new = [] := eq_nil_iff_forall_not_mem.2 fun c hc => (hmem c hc).1
  rw [hnew, this, append_nil]

theorem derived_value (hs : WeakStart env st₀) (h : WeakInv env st₀ pending st index)
    (hm : m ∈ st.registered .weakMap) (hentry : entry ∈ env.rows m)
    (hkey : isMarked env st entry.1 = true) {d : ℕ} (hd : Targets env [entry.2] d) : Derived env st₀ d := by
  obtain ⟨hderived, hkind, hactive⟩ := h.map_active hs hm
  cases hmanaged : managed env entry.1 with
  | false => exact .edge hderived (.inr ⟨hactive, hkind, entry, hentry, hmanaged, hd⟩)
  | true =>
    have hk : Targets env [entry.1] (valueToHeap entry.1) := targets_singleton.2 ⟨hmanaged, rfl⟩
    exact .join hderived (h.sound _ (isMarked_iff.1 hkey _ hk)) ⟨hactive, hkind, entry, hentry, hk, hd⟩

/-- what looking at entries leaves: the invariant, and every entry that was done stays done -/
structure Looked (env : TraceEnv) (st₀ : MarkState) (pending : ℕ → Prop) (s s' : MarkState × Index ℕ MalValue) : Prop where
  inv : WeakInv env st₀ pending s'.1 s'.2
  advances : Advances env st₀ s.1 s'.1
  done : ∀ entry, EntryDone env pending s.1 s.2 entry → EntryDone env pending s'.1 s'.2 entry

theorem Looked.trans {s s' s'' : MarkState × Index ℕ MalValue} (h : Looked env st₀ pending s s')
    (h' : Looked env st₀ pending s' s'') : Looked env st₀ pending s s'' :=
  ⟨h'.inv, h.advances.trans h'.advances, fun entry he => h'.done entry (h.done entry he)⟩

theorem indexEntry_inv (hs : WeakStart env st₀) (h : WeakInv env st₀ pending st index)
    (hm : m ∈ st.registered .weakMap) (hentry : entry ∈ env.rows m) :
    Looked env st₀ pending (st, index) (indexEntry env (st, index) entry) ∧
      EntryDone env pending (indexEntry env (st, index) entry).1 (indexEntry env (st, index) entry).2 entry := by
  obtain ⟨key, value⟩ := entry
  unfold indexEntry
  dsimp only
  by_cases hkey : isMarked env st key = true
  · rw [if_pos hkey]
    have hsh := markValue_shaded env st value
    have hderived := fun d => derived_value (d := d) hs h hm hentry hkey
    exact ⟨⟨h.shaded hsh hderived fun _ => False.elim, ⟨_, hsh, hderived⟩, fun _ he => he.shaded hsh⟩,
      fun d hd => .inl ((hsh.marked d).2 (.inr hd))⟩
  -- an unmarked key is a managed cell
  have hk : Targets env [key] (valueToHeap key) ∧ isMarkedCell st (valueToHeap key) = false := by
    simp only [isMarked, Bool.or_eq_true, Bool.not_eq_true', not_or, Bool.not_eq_false, Bool.not_eq_true] at hkey
    exact ⟨targets_singleton.2 ⟨hkey.1, rfl⟩, hkey.2⟩
  split_ifs with hwait
  · obtain ⟨hindex, hwaiting⟩ := wait_spec h.index (valueToHeap key) value
    refine ⟨⟨⟨h.mode, h.sound, h.start, h.grey, h.traced, h.registers, fun p hp => ?_, hindex⟩, .refl st, ?_⟩, ?_⟩
    · rw [hwaiting, mem_append, mem_singleton] at hp
      rcases hp with hp | rfl
      · exact h.waits p hp
      · exact ⟨m, hm, (key, value), hentry, hk.1, rfl⟩
    · intro e he d hd
      refine (he d hd).imp id ?_
      rintro ⟨k, hk, hk'⟩
      refine ⟨k, hk, hk'.imp id ?_⟩
      rintro ⟨hw, hstate⟩
      refine ⟨?_, hstate⟩
      rw [hwaiting]
      exact mem_append_left _ hw
    · intro d _
      refine .inr ⟨_, hk.1, .inr ⟨?_, .inl hk.2⟩⟩
      rw [hwaiting]
      exact mem_append_right _ (mem_singleton_self _)
  · refine ⟨⟨h, .refl st, fun _ he => he⟩, fun d hd => ?_⟩
    obtain ⟨hmanaged, rfl⟩ := targets_singleton.1 hd
    have hheap : valueIsHeap value = true := by
      simp only [managed, Bool.and_eq_true] at hmanaged
      exact hmanaged.1
    by_cases hne : valueToHeap value = valueToHeap key
    · exact .inr ⟨_, hk.1, .inl hne.symm⟩
    · simp only [hheap, ne_eq, hne, not_false_eq_true, decide_true, Bool.true_and, Bool.not_eq_true', Bool.not_eq_false] at hwait
      exact .inl (isMarked_iff.1 hwait _ hd)

theorem indexMap_inv (hs : WeakStart env st₀) (entries : List (MalValue × MalValue)) : ∀ {s : MarkState × Index ℕ MalValue},
    WeakInv env st₀ pending s.1 s.2 → m ∈ s.1.registered .weakMap → (∀ entry ∈ entries, entry ∈ env.rows m) →
    Looked env st₀ pending s (entries.foldl (indexEntry env) s) ∧
      ∀ entry ∈ entries, EntryDone env pending (entries.foldl (indexEntry env) s).1 (entries.foldl (indexEntry env) s).2
        entry := by
  induction entries with
  | nil => exact fun h _ _ => ⟨⟨h, .refl _, fun _ he => he⟩, nofun⟩
  | cons entry entries ih =>
    intro s h hm hrows
    obtain ⟨hfirst, hdone⟩ := indexEntry_inv hs h hm (hrows entry mem_cons_self)
    have hm' : m ∈ (indexEntry env s entry).1.registered .weakMap := by
      rw [hfirst.advances.registered]
      exact hm
    obtain ⟨hrest, hdones⟩ := ih hfirst.inv hm' fun e he => hrows e (mem_cons_of_mem entry he)
    refine ⟨hfirst.trans hrest, fun e he => ?_⟩
    rcases mem_cons.1 he with rfl | he
    · exact hrest.done _ hdone
    · exact hdones e he

theorem indexMaps_inv (hs : WeakStart env st₀) (maps : List ℕ) : ∀ {s : MarkState × Index ℕ MalValue},
    WeakInv env st₀ pending s.1 s.2 → (∀ m ∈ maps, m ∈ s.1.registered .weakMap) →
    Looked env st₀ pending s (maps.foldl (indexMap env) s) ∧ ∀ m ∈ maps, ∀ entry ∈ env.rows m,
        EntryDone env pending (maps.foldl (indexMap env) s).1 (maps.foldl (indexMap env) s).2 entry := by
  induction maps with
  | nil => exact fun h _ => ⟨⟨h, .refl _, fun _ he => he⟩, nofun⟩
  | cons m maps ih =>
    intro s h hmem
    obtain ⟨hfirst, hdone⟩ := indexMap_inv hs (env.rows m) h (hmem m mem_cons_self) fun _ he => he
    obtain ⟨hrest, hdones⟩ := ih hfirst.inv fun m' hm' => by
      rw [hfirst.advances.registered]
      exact hmem m' (mem_cons_of_mem m hm')
    refine ⟨hfirst.trans hrest, fun m' hm' entry he => ?_⟩
    rcases mem_cons.1 hm' with rfl | hm'
    · exact hrest.done entry (hdone entry he)
    · exact hdones m' hm' entry he

/-! ## Taking a grey cell -/

theorem pop_inv (h : WeakInv env st₀ (fun _ => False) st index) {grey : List ℕ} (hgrey : st.grey = cell :: grey) :
    WeakInv env st₀ (· = cell) { st with grey := grey } index := by
  refine ⟨⟨h.mode.markColor, h.mode.majorCollection, h.mode.old, h.mode.color⟩, h.sound, h.start, fun c hc => ?_,
    fun c hc hb hg hp => ?_, h.registers, h.waits, h.index⟩
  · exact h.grey c (hgrey ▸ mem_cons_of_mem cell hc)
  · refine h.traced c hc hb ?_ id
    rw [hgrey]
    exact fun hmem => (mem_cons.1 hmem).elim hp hg

theorem EntryDone.pop (h : EntryDone env (fun _ => False) st index entry)
    {grey : List ℕ} (hgrey : st.grey = cell :: grey) : EntryDone env (· = cell) { st with grey := grey } index entry := by
  intro d hd
  refine (h d hd).imp id fun ⟨k, hk, hk'⟩ => ⟨k, hk, hk'.imp id fun ⟨hw, hstate⟩ => ⟨hw, hstate.imp id fun hor => ?_⟩⟩
  rcases hor with hg | hf
  · rw [hgrey] at hg
    exact (mem_cons.1 hg).elim Or.inr Or.inl
  · exact hf.elim

theorem activateValue_eq (env : TraceEnv) (st : MarkState) (value : MalValue) :
    activateValue env st value = markValue env st value := by
  unfold activateValue
  by_cases hm : isMarked env st value = true
  · rw [if_pos hm, markValue]
    by_cases hheap : valueIsHeap value = true
    · rw [if_pos hheap, shade, if_pos]
      simpa [isMarked, managed, hheap] using hm
    · rw [if_neg hheap]
  · rw [if_neg hm]

/-- **Activation.** What waited for the cell is marked. -/
theorem activate_inv (hs : WeakStart env st₀) (h : WeakInv env st₀ (· = cell) st index)
    (hcell : isMarkedCell st cell = true) :
    ∃ index' st', activate ephemeronBucket (activateValue env) index st cell = some (index', st') ∧
      WeakInv env st₀ (· = cell) st' index' ∧ Advances env st₀ st st' ∧
      ∀ entry, EntryDone env (· = cell) st index entry → EntryDone env (fun _ => False) st' index' entry := by
  obtain ⟨index', hrun, hindex, hwaiting⟩ := activate_spec (activateValue env) ephemeronBucket_lt h.index st cell
  have hvisit : activateValue env = markValue env := funext fun st => funext fun value => activateValue_eq env st value
  set values := (((waiting index).filter fun p => p.1 = cell).map Prod.snd).reverse with hvalues
  have hmem : ∀ value, value ∈ values ↔ (cell, value) ∈ waiting index := by
    intro value
    simp [hvalues]
  have hsh := markValues_shaded env values st
  have hderived : ∀ d, Targets env values d → Derived env st₀ d := by
    rintro d ⟨value, hvalue, hd⟩
    obtain ⟨m, hm, entry, hentry, hkey, heq⟩ := h.waits _ ((hmem value).1 hvalue)
    obtain ⟨hmd, hkind, hactive⟩ := h.map_active hs hm
    exact .join hmd (h.sound cell hcell) ⟨hactive, hkind, entry, hentry, hkey, heq ▸ targets_singleton.2 hd⟩
  have hinv := h.shaded hsh hderived fun _ => False.elim
  refine ⟨index', markValues env st values, by rw [hrun, hvisit]; rfl, ?_, ⟨_, hsh, hderived⟩, fun entry he d hd => ?_⟩
  · refine ⟨hinv.mode, hinv.sound, hinv.start, hinv.grey, hinv.traced, hinv.registers, fun p hp => ?_, hindex⟩
    rw [hwaiting] at hp
    exact hinv.waits p (mem_of_mem_filter hp)
  rcases he.shaded hsh d hd with hm | ⟨k, hk, heq | ⟨hw, hstate⟩⟩
  · exact .inl hm
  · exact .inr ⟨k, hk, .inl heq⟩
  by_cases hkc : k = cell
  · -- the entry waited for the cell
    subst hkc
    exact .inl ((hsh.marked d).2 (.inr ⟨entry.2, (hmem _).2 hw, targets_singleton.1 hd⟩))
  refine .inr ⟨k, hk, .inr ⟨?_, hstate.imp id fun hor => hor.imp id fun hp => (hkc hp).elim⟩⟩
  rw [hwaiting]
  exact mem_filter.2 ⟨hw, by simpa using hkc⟩

/-- **Tracing** the cell settles it. -/
theorem trace_inv (h : WeakInv env st₀ (· = cell) st index) (hcell : isMarkedCell st cell = true)
    (hblack : ¬ Black st₀ cell) : WeakInv env st₀ (fun _ => False) (traceCell env st cell) index := by
  obtain ⟨hsh, hreg⟩ := traceCell_shaded env st cell
  have hderived := h.sound cell hcell
  have hinv := h.shaded hsh (fun d hd => .edge hderived (.inl ⟨hblack, hd⟩)) fun c hc => hc ▸ ⟨hderived, hblack⟩
  refine ⟨hinv.mode, hinv.sound, hinv.start, hinv.grey, fun c hc hb hg _ => ?_, hinv.registers, hinv.waits, hinv.index⟩
  by_cases hcc : c = cell
  · subst hcc
    exact ⟨fun d hd => (hsh.marked d).2 (.inr hd), hreg⟩
  · exact hinv.traced c hc hb hg hcc

/-! ## The loop -/

/-- grey cells, and cells that may yet become grey -/
def work (L : Finset ℕ) (st : MarkState) : ℕ := st.grey.length + (L.filter fun c => isMarkedCell st c = false).card

theorem Shaded.work_eq (h : Shaded env st st' T P) (hT : ∀ c, T c → c ∈ L) : work L st' = work L st := by
  obtain ⟨new, hgrey, hnodup, hnew⟩ := h.grey
  have hsub : new.toFinset ⊆ L.filter fun c => isMarkedCell st c = false := by
    intro c hc
    obtain ⟨hTc, hun⟩ := (hnew c).1 (mem_toFinset.1 hc)
    exact Finset.mem_filter.2 ⟨hT c hTc, hun⟩
  have hleft : (L.filter fun c => isMarkedCell st' c = false) =
      (L.filter fun c => isMarkedCell st c = false) \ new.toFinset := by
    ext c
    simp only [Finset.mem_filter, Finset.mem_sdiff, mem_toFinset, hnew, ← Bool.not_eq_true, h.marked]
    tauto
  have hcard := Finset.card_sdiff_add_card_eq_card hsub
  rw [toFinset_card_of_nodup hnodup] at hcard
  unfold work
  rw [hleft, hgrey, length_append]
  omega

/-- the state in which the loop ends -/
structure WeakFinal (env : TraceEnv) (st₀ st : MarkState) : Prop where
  mode : SameMode st₀ st
  grey : st.grey = []
  marked : ∀ c, isMarkedCell st c = true ↔ Derived env st₀ c
  traced : ∀ c, isMarkedCell st c = true → ¬ Black st₀ c →
    (∀ d, Targets env (env.strong c) d → isMarkedCell st d = true) ∧ Registered env st c
  registers : Registers env st₀ st fun c => Derived env st₀ c ∧ ¬ Black st₀ c

theorem WeakInv.final (h : WeakInv env st₀ (fun _ => False) st index) (hgrey : st.grey = [])
    (hdone : ∀ m ∈ st.registered .weakMap, ∀ entry ∈ env.rows m, EntryDone env (fun _ => False) st index entry) :
    WeakFinal env st₀ st := by
  have htraced : ∀ c, isMarkedCell st c = true → ¬ Black st₀ c →
      (∀ d, Targets env (env.strong c) d → isMarkedCell st d = true) ∧ Registered env st c :=
    fun c hc hb => h.traced c hc hb (by rw [hgrey]; exact not_mem_nil) id
  have hmap : ∀ m, isMarkedCell st m = true → env.kind m = .weakMap → (¬ Black st₀ m ∨ m ∈ st₀.registered .weakMap) →
      m ∈ st.registered .weakMap := by
    rintro m hm hkind (hb | hreg)
    · have := (htraced m hm hb).2
      rw [Registered, hkind] at this
      exact this (by simp)
    · exact h.registers.subset hreg
  have hclosed : Closed (activeRules env st₀) fun c => isMarkedCell st c = true := by
    constructor
    · rintro a b ha (⟨hb, hd⟩ | ⟨hactive, hkind, entry, hentry, hkey, hd⟩)
      · exact (htraced a ha hb).1 b hd
      · rcases hdone a (hmap a ha hkind hactive) entry hentry b hd with hm | ⟨k, hk, -⟩
        · exact hm
        · rw [(targets_singleton.1 hk).1] at hkey
          cases hkey
    rintro a b c ha hb ⟨hactive, hkind, entry, hentry, hk, hd⟩
    rcases hdone a (hmap a ha hkind hactive) entry hentry c hd with hm | ⟨k, hk', hstate⟩
    · exact hm
    have hkb : k = b := (targets_singleton.1 hk').2.symm.trans (targets_singleton.1 hk).2
    subst hkb
    rcases hstate with rfl | ⟨-, hun | hg | hf⟩
    · exact hb
    · rw [hb] at hun
      cases hun
    · rw [hgrey] at hg
      cases hg
    · exact hf.elim
  exact ⟨h.mode, hgrey, fun c => ⟨h.sound c, fun hd => hd.least hclosed h.start⟩, htraced, h.registers⟩

theorem weakMarkLoop_spec (hs : WeakStart env st₀) (hL : ∀ c, Derived env st₀ c → c ∈ L) (fuel : ℕ) (st : MarkState)
    (index : Index ℕ MalValue) (indexedMaps : ℕ) (h : WeakInv env st₀ (fun _ => False) st index)
    (hdone : ∀ m ∈ (st.registered .weakMap).take indexedMaps, ∀ entry ∈ env.rows m, EntryDone env (fun _ => False) st index entry)
    (hfuel : work L st + 2 ≤ fuel) :
    ∃ st', weakMarkLoop env fuel st index indexedMaps = some st' ∧ WeakFinal env st₀ st' := by
  induction fuel generalizing st index indexedMaps with
  | zero => exact absurd hfuel (by omega)
  | succ fuel ih =>
    rw [weakMarkLoop]
    split_ifs with hmore
    · dsimp only
      obtain ⟨hlook, hlooked⟩ := indexMaps_inv hs ((st.registered .weakMap).drop indexedMaps) (s := (st, index)) h
        fun m hm => mem_of_mem_drop hm
      change Looked env st₀ _ (st, index) (indexMaps env st index indexedMaps) at hlook
      set s := indexMaps env st index indexedMaps with hsdef
      have hreg : s.1.registered = st.registered := hlook.advances.registered
      have hall : ∀ m ∈ s.1.registered .weakMap, ∀ entry ∈ env.rows m, EntryDone env (fun _ => False) s.1 s.2 entry := by
        intro m hm entry hentry
        rw [hreg, ← take_append_drop indexedMaps (st.registered .weakMap), mem_append] at hm
        rcases hm with hm | hm
        · exact hlook.done entry (hdone m hm entry hentry)
        · exact hlooked m hm entry hentry
      have hwork : work L s.1 = work L st := by
        obtain ⟨T, hsh, hT⟩ := hlook.advances
        exact hsh.work_eq fun c hc => hL c (hT c hc)
      cases hgrey : s.1.grey with
      | nil =>
        -- nothing was marked: the next test ends the loop
        obtain ⟨fuel, rfl⟩ : ∃ f, fuel = f + 1 := ⟨fuel - 1, by omega⟩
        refine ⟨s.1, ?_, hlook.inv.final hgrey hall⟩
        rw [weakMarkLoop]
        rw [hreg, hgrey]
        simp
      | cons cell grey =>
        obtain ⟨hcell, hblack⟩ := hlook.inv.grey cell (hgrey ▸ mem_cons_self)
        obtain ⟨index', st', hrun, hinv, hadv, hentries⟩ := activate_inv hs (pop_inv hlook.inv hgrey) hcell
        have hcell' : isMarkedCell st' cell = true := by
          obtain ⟨T, hsh, -⟩ := hadv
          exact (hsh.marked cell).2 (.inl hcell)
        obtain ⟨htrace, -⟩ := traceCell_shaded env st' cell
        have hreg' : st'.registered .weakMap = st.registered .weakMap := by
          rw [hadv.registered]
          exact congrFun hreg .weakMap
        dsimp only
        rw [hrun]
        refine ih _ index' _ (trace_inv hinv hcell' hblack) ?_ ?_
        · -- the maps that were registered before have been looked at; a map registered now is still to come
          intro m hm entry hentry
          obtain ⟨new, hnew, -⟩ := htrace.registers .weakMap
          rw [hnew, hreg', take_left] at hm
          exact (hentries entry ((hall m (hreg ▸ hm) entry hentry).pop hgrey)).shaded htrace
        · have hpop : work L s.1 = work L { s.1 with grey := grey } + 1 := by
            rw [work, hgrey]
            exact Nat.add_right_comm _ _ _
          have hact : work L st' = work L { s.1 with grey := grey } := by
            obtain ⟨T, hsh, hT⟩ := hadv
            exact hsh.work_eq fun c hc => hL c (hT c hc)
          have htr : work L (traceCell env st' cell) = work L st' :=
            htrace.work_eq fun c hc => hL c (.edge (hinv.sound cell hcell') (.inl ⟨hblack, hc⟩))
          omega
    · rw [not_or, not_lt, not_not] at hmore
      exact ⟨st, rfl, h.final hmore.2 (by rwa [take_of_length_le hmore.1] at hdone)⟩

/-- **The marking loop ends**, and the marked cells are exactly those that the rules derive from the marks at the start. -/
theorem weakMark_spec (hs : WeakStart env st₀) (hL : ∀ c, Derived env st₀ c → c ∈ L) {fuel : ℕ}
    (hfuel : work L st₀ + 2 ≤ fuel) : ∃ st', weakMark env fuel st₀ = some st' ∧ WeakFinal env st₀ st' :=
  weakMarkLoop_spec hs hL fuel st₀ .empty 0 (weakInv_start hs) (by simp) hfuel

end Invariant

end Maligator.Gc
