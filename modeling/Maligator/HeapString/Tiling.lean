/-
Iteration over the segments of a string, in both directions.

`bordersFrom` are the places where two leaves of a string meet: a range lies in one leaf when no border is inside it.
`segments_tile`: the segments of a range tile it, read backwards in a backward iteration, and a range is one segment exactly
when it lies in one leaf.
-/
import Maligator.HeapString.Join

namespace Maligator.HeapString

open Text List

/-- where two leaves meet below a cell, looking at most `fuel` levels down; a slice lies in its parent, a leaf -/
def bordersFrom (h : StringHeap) : ℕ → ℕ → List ℕ
  | 0, _ => []
  | fuel + 1, a =>
    match (h.get a).storage with
    | .cons _ left right =>
      bordersFrom h fuel left ++ h.length left :: (bordersFrom h fuel right).map (h.length left + ·)
    | _ => []

def InOneLeaf (h : StringHeap) (a offset length : ℕ) : Prop :=
  ∀ border ∈ bordersFrom h (a + 1) a, border ≤ offset ∨ offset + length ≤ border

section

variable {h : StringHeap} {length : ℕ}

theorem bordersFrom_leaf {a : ℕ} {payload : Segment} (hleaf : h.leaf? a = some payload) (fuel : ℕ) : bordersFrom h fuel a = [] := by
  cases fuel with
  | zero => rfl
  | succ fuel =>
    rw [StringHeap.leaf?] at hleaf
    rw [bordersFrom]
    cases hs : (h.get a).storage with
    | cons latin1 left right => rw [hs] at hleaf; cases hleaf
    | _ => rfl

variable (hok : HeapOk h)
include hok

theorem border_le : ∀ (fuel a : ℕ), a < h.size → ∀ border ∈ bordersFrom h fuel a, border ≤ h.length a := by
  intro fuel
  induction fuel with
  | zero => exact nofun
  | succ fuel ih =>
    intro a ha
    rw [bordersFrom]
    cases hs : (h.get a).storage with
    | cons latin1 left right =>
      obtain ⟨hl, hr, -, -, hlen, -⟩ := hok.cons ha hs
      rw [forall_mem_append, forall_mem_cons, forall_mem_map]
      refine ⟨fun border hb => ?_, by omega, fun border hb => ?_⟩
      · have := ih left (by omega) border hb
        omega
      · have := ih right (by omega) border hb
        omega
    | _ => exact nofun

theorem segmentFrom_isSome : ∀ (fuel a offset : ℕ), a < fuel → a < h.size → offset + length ≤ h.length a →
    ((segmentFrom h fuel a offset length).isSome = true ↔
      ∀ border ∈ bordersFrom h fuel a, border ≤ offset ∨ offset + length ≤ border) := by
  intro fuel
  induction fuel with
  | zero => simp
  | succ fuel ih =>
    intro a offset hf ha hle
    rw [segmentFrom, bordersFrom]
    cases hs : (h.get a).storage with
    | flat kind payload | builder payload capacity => simp
    | dependent latin1 parent sliceOffset =>
      obtain ⟨hp, payload, hleaf, hfit⟩ := hok.dependent ha hs
      have hlen := length_units hok parent (by omega)
      rw [units_of_leaf hleaf] at hlen
      have hparent := ih parent (offset + sliceOffset) (by omega) (by omega) (by omega)
      rw [bordersFrom_leaf hleaf] at hparent
      exact hparent.trans (by simp)
    | cons latin1 left right =>
      obtain ⟨hl, hr, -, -, hlen, -⟩ := hok.cons ha hs
      dsimp only
      rw [forall_mem_append, forall_mem_cons, forall_mem_map]
      split_ifs with h1 h2
      · rw [ih right (offset - h.length left) (by omega) (by omega) (by omega)]
        refine ⟨fun hright => ⟨fun border hb => .inl ?_, .inl h1, fun border hb => ?_⟩, fun hall border hb => ?_⟩
        · exact (border_le hok fuel left (by omega) border hb).trans h1
        · have := hright border hb
          omega
        · have := hall.2.2 border hb
          omega
      · rw [ih left offset (by omega) (by omega) (by omega)]
        exact ⟨fun hleft => ⟨hleft, .inr (by omega), fun border _ => .inr (by omega)⟩, fun hall => hall.1⟩
      · exact ⟨by simp, fun hall => by omega⟩

end

/-- **Iteration tiles the range.** Calls after the first `length` return false. -/
theorem segments_tile (h : StringHeap) (hok : HeapOk h) (a offset length : ℕ) (ha : a < h.size)
    (hle : offset + length ≤ h.length a) :
    (∀ calls ≥ length, let segments := segmentsFrom h false calls (iteratorPush ⟨a, offset, length⟩ [])
      flatUnits segments = slice (units h a) offset length ∧ ∀ segment ∈ segments, segment.units ≠ []) ∧
    (∀ calls ≥ length, let segments := segmentsFrom h true calls (iteratorPush ⟨a, offset, length⟩ [])
      flatUnits segments.reverse = slice (units h a) offset length ∧ ∀ segment ∈ segments, segment.units ≠ []) ∧
    ((∃ segment, tryGetSegment h a offset length = some segment) ↔ InOneLeaf h a offset length) ∧
    ∀ segment, tryGetSegment h a offset length = some segment → segment.units = slice (units h a) offset length := by
  refine ⟨fun calls hcalls => ?_, fun calls hcalls => ?_, ?_, fun segment hs => tryGetSegment_units hok ha hle hs⟩
  · exact iterator_units hok ha hle false hcalls
  · obtain ⟨hunits, hnonempty⟩ := iterator_units hok ha hle true hcalls
    refine ⟨?_, hnonempty⟩
    rw [← reverse_inj, flatUnits, reverse_flatMap, reverse_reverse]
    exact hunits
  · rw [← Option.isSome_iff_exists, tryGetSegment]
    split_ifs with hzero
    · exact iff_of_true rfl fun border _ => by omega
    · exact segmentFrom_isSome hok (a + 1) a offset (Nat.lt_succ_self a) ha hle

/-- the concatenation of two leaves: a range in the second, and one over the border -/
theorem segments_tile_heavy : flatUnits (segmentsFrom heavyHeap true 2 [⟨2, 39, 2⟩]).reverse = slice (units heavyHeap 2) 39 2 ∧
    (∃ segment, tryGetSegment heavyHeap 2 40 2 = some segment) ∧ ¬∃ segment, tryGetSegment heavyHeap 2 39 2 = some segment := by
  have hover := segments_tile heavyHeap heavyHeap_ok 2 39 2 (by decide) (by decide)
  have hsecond := segments_tile heavyHeap heavyHeap_ok 2 40 2 (by decide) (by decide)
  refine ⟨(hover.2.1 2 le_rfl).1, hsecond.2.2.1.2 ?_, fun hsegment => ?_⟩
  · unfold InOneLeaf
    decide
  · have := hover.2.2.1.1 hsegment
    revert this
    unfold InOneLeaf
    decide

end Maligator.HeapString
