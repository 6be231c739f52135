/-
Which young elements the cards of an array cover.

`Covered st n P`: of the first n elements, those that are young and not covered by the array's card lie in P. An element
store adds its index to P and its card takes it out again; so every operation is a chain of steps on P, and an operation
that leaves no card must leave P as it was.
-/
import Maligator.Array.Storage

namespace Maligator.Array

/-- a managed heap cell without the OLD bit -/
def young (immortal old : ℕ → Bool) (value : MalValue) : Bool :=
  valueIsHeap value && !immortal (valueToHeap value) && !old (valueToHeap value)

theorem young_heap {immortal old : ℕ → Bool} {value : MalValue} (h : young immortal old value = true) :
    valueIsHeap value = true ∧ immortal (valueToHeap value) = false ∧ old (valueToHeap value) = false := by
  simpa [young, and_assoc] using h

section Covered

variable (immortal : ℕ → Bool) (owner : ℕ)

structure Covered (st : CardState) (n : ℕ) (P : ℕ → Prop) : Prop where
  clean : st.array.dirty = .clean → ∀ i < n, young immortal st.old (st.array.element i) = true → P i
  range : st.array.dirty = .arrayRange → ∀ i < n, young immortal st.old (st.array.element i) = true →
    st.array.minorScanStart ≤ i ∨ P i
  full : st.array.dirty = .full → st.array.minorScanStart = 0
  listed : st.array.dirty ≠ .clean → owner ∈ st.remembered
  frontier : st.array.minorScanStart ≤ arrayMinorScanMax
  ownerOld : st.old owner = true

/-- everything but the card -/
structure Frame (st st' : CardState) : Prop where
  elements : st'.array.elements = st.array.elements
  length : st'.array.length = st.array.length
  capacity : st'.array.capacity = st.array.capacity
  denseCount : st'.array.denseCount = st.array.denseCount
  old : st'.old = st.old

theorem Frame.refl (st : CardState) : Frame st st := ⟨rfl, rfl, rfl, rfl, rfl⟩

variable {st' : CardState} {Q : ℕ → Prop} {index : ℕ} {value : MalValue}

theorem Frame.trans {st st'' : CardState} (h : Frame st st') (h' : Frame st' st'') : Frame st st'' :=
  ⟨h'.elements.trans h.elements, h'.length.trans h.length, h'.capacity.trans h.capacity,
    h'.denseCount.trans h.denseCount, h'.old.trans h.old⟩

theorem Frame.element {st : CardState} (h : Frame st st') (i : ℕ) : st'.array.element i = st.array.element i := by
  rw [MalArrayObject.element, h.elements]
  rfl

variable {immortal owner} {st : CardState} {n : ℕ} {P : ℕ → Prop}

theorem Covered.mono (h : Covered immortal owner st n P) {m : ℕ} (hm : ∀ i < m, i < n ∨ Q i)
    (hPQ : ∀ i, P i → Q i) : Covered immortal owner st m Q where
  clean hd i hi hy := by
    rcases hm i hi with h' | h'
    · exact hPQ i (h.clean hd i h' hy)
    · exact h'
  range hd i hi hy := by
    rcases hm i hi with h' | h'
    · exact (h.range hd i h' hy).imp id (hPQ i)
    · exact .inr h'
  full := h.full
  listed := h.listed
  frontier := h.frontier
  ownerOld := h.ownerOld

section

variable (h : Covered immortal owner st n P) (hd : st'.array.dirty = st.array.dirty)
  (hs : st'.array.minorScanStart = st.array.minorScanStart) (hr : st'.remembered = st.remembered) (ho : st'.old = st.old)
include h hd hs hr ho

theorem Covered.change (he : ∀ i < n, Q i ∨ st'.array.element i = st.array.element i) :
    Covered immortal owner st' n fun i => P i ∨ Q i where
  clean hc i hi hy := by
    rcases he i hi with hq | heq
    · exact .inr hq
    · rw [ho, heq] at hy
      exact .inl (h.clean (hd ▸ hc) i hi hy)
  range hc i hi hy := by
    rcases he i hi with hq | heq
    · exact .inr (.inr hq)
    rw [ho, heq] at hy
    rw [hs]
    exact (h.range (hd ▸ hc) i hi hy).imp id Or.inl
  full hc := by rw [hs]; exact h.full (hd ▸ hc)
  listed hc := by rw [hr]; exact h.listed (hd ▸ hc)
  frontier := by rw [hs]; exact h.frontier
  ownerOld := by rw [ho]; exact h.ownerOld

theorem Covered.same (he : ∀ i < n, st'.array.element i = st.array.element i) : Covered immortal owner st' n P :=
  (h.change (Q := fun _ => False) hd hs hr ho fun i hi => .inr (he i hi)).mono (fun _ hi => .inl hi)
    fun _ hP => hP.elim id False.elim

end

/-! ## Cards -/

theorem gcRemember_frame (owner : ℕ) (st : CardState) : Frame st (gcRemember owner st) := by
  unfold gcRemember
  split_ifs <;> exact ⟨rfl, rfl, rfl, rfl, rfl⟩

section

variable (h : Covered immortal owner st n P)
include h

/-- **A remembered array** is traced from the start. -/
theorem gcRemember_covered (Q : ℕ → Prop) : Covered immortal owner (gcRemember owner st) n Q := by
  unfold gcRemember
  split_ifs with hd
  · exact ⟨nofun, nofun, fun _ => rfl, fun _ => h.listed hd, Nat.zero_le _, h.ownerOld⟩
  · exact ⟨nofun, nofun, fun _ => rfl, fun _ => List.mem_append_right _ (List.mem_singleton_self owner), Nat.zero_le _,
      h.ownerOld⟩

omit h in
theorem gcCard_frame (owner : ℕ) (st : CardState) (value : MalValue) : Frame st (gcCard owner st value) := by
  unfold gcCard
  split_ifs
  · exact Frame.refl st
  · exact gcRemember_frame owner st
  · exact Frame.refl st

theorem Covered.of_full (hd : st.array.dirty = .full) (Q : ℕ → Prop) : Covered immortal owner st n Q where
  clean hc := absurd (hd.symm.trans hc) (by decide)
  range hc := absurd (hd.symm.trans hc) (by decide)
  full := h.full
  listed := h.listed
  frontier := h.frontier
  ownerOld := h.ownerOld

theorem Covered.drop
    (hQ : ∀ i < n, young immortal st.old (st.array.element i) = true → P i → Q i) : Covered immortal owner st n Q where
  clean hd i hi hy := hQ i hi hy (h.clean hd i hi hy)
  range hd i hi hy := (h.range hd i hi hy).imp id (hQ i hi hy)
  full := h.full
  listed := h.listed
  frontier := h.frontier
  ownerOld := h.ownerOld

/-- **The plain card** of a value covers the elements that hold it. -/
theorem gcCard_covered (value : MalValue) :
    Covered immortal owner (gcCard owner st value) n fun i => P i ∧ st.array.element i ≠ value := by
  unfold gcCard
  rw [h.ownerOld]
  simp only [Bool.not_true, Bool.false_or, decide_eq_true_eq]
  split_ifs with hfull hyoung
  · exact h.of_full hfull _
  · exact gcRemember_covered h _
  refine h.drop fun i _ hy hP => ⟨hP, fun heq => hyoung ?_⟩
  obtain ⟨hheap, -, hold⟩ := young_heap hy
  rw [← heq, hheap, hold]
  rfl

end

theorem gcArrayCardSlow_frame (owner : ℕ) (st : CardState) (index : ℕ) (value : MalValue) :
    Frame st (gcArrayCardSlow owner st index value) := by
  have hrem := gcRemember_frame owner st
  have hpart : Frame st (if st.array.dirty = .clean then
      { gcRemember owner st with array := { (gcRemember owner st).array with dirty := .arrayRange } } else st) := by
    split_ifs
    · exact ⟨hrem.elements, hrem.length, hrem.capacity, hrem.denseCount, hrem.old⟩
    · exact Frame.refl st
  unfold gcArrayCardSlow
  by_cases hskip : (!st.old owner || decide (st.array.dirty = .full) || !valueIsHeap value ||
      st.old (valueToHeap value)) = true
  · rw [if_pos hskip]
    exact Frame.refl st
  · rw [if_neg hskip]
    exact ⟨hpart.elements, hpart.length, hpart.capacity, hpart.denseCount, hpart.old⟩

theorem arrayObjectCard_frame (owner : ℕ) (st : CardState) (index : ℕ) (value : MalValue) :
    Frame st (arrayObjectCard owner st index value) := by
  unfold arrayObjectCard
  split_ifs
  · exact Frame.refl st
  · exact Frame.refl st
  · exact gcArrayCardSlow_frame owner st index value

theorem covered_of_range (h : Covered immortal owner st n P) (hframe : Frame st st')
    (hnot : st.array.dirty ≠ .full) (hd : st'.array.dirty = .arrayRange) (hl : owner ∈ st'.remembered)
    (hs : st'.array.minorScanStart ≤ st.array.minorScanStart) (hi : st'.array.minorScanStart ≤ index) :
    Covered immortal owner st' n fun i => P i ∧ i ≠ index where
  clean hc := absurd (hd.symm.trans hc) (by decide)
  range _ i hlt hy := by
    rw [hframe.old, hframe.element] at hy
    by_cases hidx : i = index
    · exact .inl (hidx ▸ hi)
    cases hst : st.array.dirty with
    | clean => exact .inr ⟨h.clean hst i hlt hy, hidx⟩
    | full => exact absurd hst hnot
    | arrayRange => exact (h.range hst i hlt hy).imp hs.trans fun hP => ⟨hP, hidx⟩
  full hc := absurd (hd.symm.trans hc) (by decide)
  listed _ := hl
  frontier := hs.trans h.frontier
  ownerOld := by rw [hframe.old]; exact h.ownerOld

theorem gcArrayCardSlow_covered (h : Covered immortal owner st n P) (he : st.array.element index = value) :
    Covered immortal owner (gcArrayCardSlow owner st index value) n fun i => P i ∧ i ≠ index := by
  have hframe := gcArrayCardSlow_frame owner st index value
  unfold gcArrayCardSlow at hframe ⊢
  by_cases hskip : (!st.old owner || decide (st.array.dirty = .full) || !valueIsHeap value ||
      st.old (valueToHeap value)) = true
  · rw [if_pos hskip]
    rw [h.ownerOld] at hskip
    by_cases hfull : st.array.dirty = .full
    · exact h.of_full hfull _
    refine h.drop fun i _ hy hP => ⟨hP, ?_⟩
    rintro rfl
    obtain ⟨hheap, -, hold⟩ := young_heap hy
    rw [he] at hheap hold
    simp [hfull, hheap, hold] at hskip
  rw [if_neg hskip] at hframe ⊢
  simp only [Bool.or_eq_true, decide_eq_true_eq, not_or] at hskip
  have hstart : (if index < st.array.minorScanStart then index else st.array.minorScanStart) ≤ st.array.minorScanStart ∧
      (if index < st.array.minorScanStart then index else st.array.minorScanStart) ≤ index := by
    split_ifs with hlt
    · exact ⟨hlt.le, le_rfl⟩
    · exact ⟨le_rfl, Nat.le_of_not_lt hlt⟩
  have hnot := hskip.1.1.2
  by_cases hclean : st.array.dirty = .clean
  · refine covered_of_range h hframe hnot ?_ ?_ hstart.1 hstart.2
    · rw [if_pos hclean]
    · rw [if_pos hclean]
      exact (gcRemember_covered h P).listed (by unfold gcRemember; split_ifs <;> simp)
  have hrange : st.array.dirty = .arrayRange := by
    cases hd : st.array.dirty with
    | clean => exact absurd hd hclean
    | full => exact absurd hd hnot
    | arrayRange => rfl
  refine covered_of_range h hframe hnot ?_ ?_ hstart.1 hstart.2
  · rw [if_neg hclean]
    exact hrange
  · rw [if_neg hclean]
    exact h.listed hclean

/-- **The indexed card** covers the element at its index. -/
theorem arrayObjectCard_covered (h : Covered immortal owner st n P) (he : st.array.element index = value) :
    Covered immortal owner (arrayObjectCard owner st index value) n fun i => P i ∧ i ≠ index := by
  unfold arrayObjectCard
  rw [h.ownerOld]
  simp only [Bool.not_true, Bool.or_false, Bool.not_eq_true']
  split_ifs with hheap hskip
  · -- no heap value, nothing to cover
    refine h.drop fun i _ hy hP => ⟨hP, ?_⟩
    rintro rfl
    have := (young_heap hy).1
    rw [he, hheap] at this
    cases this
  · rcases hskip with hfull | ⟨hrange, hge⟩
    · exact h.of_full hfull _
    · exact covered_of_range h (Frame.refl st) (by rw [hrange]; decide) hrange (h.listed (by rw [hrange]; decide)) le_rfl hge
  · exact gcArrayCardSlow_covered h he

/-! ## Loops of cards -/

theorem arrayObjectDenseCardRange_frame (owner : ℕ) (st : CardState) (start stop : ℕ) :
    Frame st (arrayObjectDenseCardRange owner st start stop) := by
  unfold arrayObjectDenseCardRange
  generalize List.range' start (stop - start) = indices
  induction indices generalizing st with
  | nil => exact Frame.refl st
  | cons index indices ih => exact (gcCard_frame owner st _).trans (ih _)

/-- **Cards for a range** cover it. -/
theorem arrayObjectDenseCardRange_covered (h : Covered immortal owner st n P) (start stop : ℕ) :
    Covered immortal owner (arrayObjectDenseCardRange owner st start stop) n fun i => P i ∧ ¬ (start ≤ i ∧ i < stop) := by
  have hloop : ∀ (indices : List ℕ) (st : CardState) (P : ℕ → Prop), Covered immortal owner st n P →
      Covered immortal owner (indices.foldl (fun st index => gcCard owner st (st.array.element index)) st) n
        fun i => P i ∧ i ∉ indices := by
    intro indices
    induction indices with
    | nil => exact fun st P h => h.mono (fun _ => Or.inl) fun i hP => ⟨hP, List.not_mem_nil⟩
    | cons index indices ih =>
      intro st P h
      refine (ih _ _ (gcCard_covered h (st.array.element index))).mono (fun _ => Or.inl) ?_
      rintro i ⟨⟨hP, hne⟩, hmem⟩
      refine ⟨hP, fun hi => ?_⟩
      rcases List.mem_cons.1 hi with rfl | hi
      · exact hne rfl
      · exact hmem hi
  refine (hloop _ st P h).mono (fun _ => Or.inl) ?_
  rintro i ⟨hP, hmem⟩
  refine ⟨hP, fun hi => hmem ?_⟩
  rw [List.mem_range'_1]
  omega

/-- a card that covers the element at its index, and changes nothing else -/
structure CardsIndex (immortal : ℕ → Bool) (owner : ℕ) (card : CardState → ℕ → MalValue → CardState) : Prop where
  frame : ∀ st index value, Frame st (card st index value)
  covers : ∀ st n P index value, Covered immortal owner st n P → st.array.element index = value →
    Covered immortal owner (card st index value) n fun i => P i ∧ i ≠ index

theorem cardsIndex_indexed (immortal : ℕ → Bool) (owner : ℕ) : CardsIndex immortal owner (arrayObjectCard owner) :=
  ⟨arrayObjectCard_frame owner, fun _ _ _ _ _ h he => arrayObjectCard_covered h he⟩

theorem cardsIndex_plain (immortal : ℕ → Bool) (owner : ℕ) :
    CardsIndex immortal owner fun st _ value => gcCard owner st value := by
  refine ⟨fun st _ value => gcCard_frame owner st value, fun st n P index value h he => ?_⟩
  refine (gcCard_covered h value).mono (fun _ => Or.inl) ?_
  rintro i ⟨hP, hne⟩
  refine ⟨hP, ?_⟩
  rintro rfl
  exact hne he

theorem element_write (hsome : st.array.elements.isSome = true) (i : ℕ) :
    (st.write index value).array.element i = if i = index then value else st.array.element i := by
  obtain ⟨elements, helements⟩ := Option.isSome_iff_exists.1 hsome
  simp only [CardState.write, MalArrayObject.mapElements, MalArrayObject.element, helements, Option.map_some,
    Option.getD_some, Function.update_apply]

theorem write_covered (h : Covered immortal owner st n P) (hsome : st.array.elements.isSome = true) (index : ℕ)
    (value : MalValue) : Covered immortal owner (st.write index value) n fun i => P i ∨ i = index := by
  refine h.change rfl rfl rfl rfl fun i _ => ?_
  rw [element_write hsome]
  by_cases hi : i = index
  · exact .inl hi
  · exact .inr (if_neg hi)

variable {card : CardState → ℕ → MalValue → CardState}

/-- **Published values** are covered. -/
theorem publishValues_covered (hcard : CardsIndex immortal owner card) (values : List MalValue) (st : CardState)
    (start : ℕ) (P : ℕ → Prop) (h : Covered immortal owner st n P) (hsome : st.array.elements.isSome = true) :
    Covered immortal owner (publishValues card st start values) n
      fun i => P i ∧ ¬ (start ≤ i ∧ i < start + values.length) := by
  induction values generalizing st start P with
  | nil => exact h.mono (fun _ => Or.inl) fun i hP => ⟨hP, fun hi => by simp at hi; omega⟩
  | cons value values ih =>
    have hframe := hcard.frame (st.write start value) start value
    have hsome' : (card (st.write start value) start value).array.elements.isSome = true := by
      rw [hframe.elements]
      exact (Option.isSome_map).trans hsome
    have hstored := hcard.covers _ _ _ start value (write_covered h hsome start value)
      ((element_write hsome start).trans (if_pos rfl))
    refine (ih _ (start + 1) _ hstored hsome').mono (fun _ => Or.inl) ?_
    rintro i ⟨⟨hP | hi, hne⟩, hout⟩
    · refine ⟨hP, fun hi => hout ?_⟩
      rw [List.length_cons] at hi
      omega
    · exact absurd hi hne

theorem publishValues_frame (hcard : CardsIndex immortal owner card) (values : List MalValue) (st : CardState)
    (start : ℕ) : (publishValues card st start values).array.capacity = st.array.capacity ∧
      (publishValues card st start values).array.elements.isSome = st.array.elements.isSome := by
  induction values generalizing st start with
  | nil => exact ⟨rfl, rfl⟩
  | cons value values ih =>
    have hframe := hcard.frame (st.write start value) start value
    obtain ⟨h1, h2⟩ := ih (card (st.write start value) start value) (start + 1)
    refine ⟨h1.trans hframe.capacity, h2.trans ?_⟩
    rw [hframe.elements]
    exact Option.isSome_map

end Covered

end Maligator.Array
