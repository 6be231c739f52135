/-
Reading strings: the segment of a range inside one leaf, the iterator over the leaves of a range, and copies made with them.

`tryGetSegment` resolves slices and the branches of a concatenation that contain the whole range. The iterator keeps a
stack of ranges still to visit; it descends to the leftmost leaf and pushes what lies to the right, or the other way round
when it runs backwards.

`tryGetSegment_units`, `iterate_units`, `copyRangeTo_eq`: each of them reads exactly the requested slice of the units the
string denotes, whatever the representation.
-/
import Maligator.HeapString.Heap

namespace Maligator.HeapString

open Text List

section

variable (h : StringHeap) (a offset : ℕ)

def slice (units : List UInt16) (offset length : ℕ) : List UInt16 := (units.drop offset).take length

/-! ## Segments -/

/-- the loop of mal_string_try_get_segment; each round goes to an older cell -/
def segmentFrom (h : StringHeap) : ℕ → ℕ → ℕ → ℕ → Option Segment
  | 0, _, _, _ => none
  | fuel + 1, a, offset, length =>
    match (h.get a).storage with
    | .dependent _ parent sliceOffset => segmentFrom h fuel parent (offset + sliceOffset) length
    | .cons _ left right =>
      if offset ≥ h.length left then segmentFrom h fuel right (offset - h.length left) length
      else if length ≤ h.length left - offset then segmentFrom h fuel left offset length
      else none
    | .flat _ payload => some ((payload.drop offset).take length)
    | .builder payload _ => some ((payload.drop offset).take length)

def tryGetSegment (length : ℕ) : Option Segment :=
  if length = 0 then some (.latin1 []) else segmentFrom h (a + 1) a offset length

/-! ## The iterator -/

structure IteratorPart where
  string : ℕ
  offset : ℕ
  length : ℕ
  deriving DecidableEq, Repr

def iteratorPush (part : IteratorPart) (stack : List IteratorPart) : List IteratorPart :=
  if part.length = 0 then stack else part :: stack

/-- the loop of mal_string_iterator_next; each round goes to an older cell -/
def descend (h : StringHeap) (reverse : Bool) : ℕ → IteratorPart → List IteratorPart → Segment × List IteratorPart
  | 0, _, stack => (.latin1 [], stack)
  | fuel + 1, part, stack =>
    match (h.get part.string).storage with
    | .dependent _ parent sliceOffset => descend h reverse fuel ⟨parent, part.offset + sliceOffset, part.length⟩ stack
    | .cons _ left right =>
      if part.offset ≥ h.length left then descend h reverse fuel ⟨right, part.offset - h.length left, part.length⟩ stack
      else
        let available := h.length left - part.offset
        if part.length > available then
          if reverse then
            descend h reverse fuel ⟨right, 0, part.length - available⟩ (iteratorPush ⟨left, part.offset, available⟩ stack)
          else
            descend h reverse fuel ⟨left, part.offset, available⟩ (iteratorPush ⟨right, 0, part.length - available⟩ stack)
        else descend h reverse fuel ⟨left, part.offset, part.length⟩ stack
    | .flat _ payload => ((payload.drop part.offset).take part.length, stack)
    | .builder payload _ => ((payload.drop part.offset).take part.length, stack)

/-- the segments of the next `calls` calls of mal_string_iterator_next, up to one that returns false -/
def segmentsFrom (h : StringHeap) (reverse : Bool) : ℕ → List IteratorPart → List Segment
  | 0, _ => []
  | _ + 1, [] => []
  | calls + 1, part :: stack =>
    let (segment, stack) := descend h reverse (part.string + 1) part stack
    segment :: segmentsFrom h reverse calls stack

/-- mal_string_iterator_init and all its segments; a segment is not empty, so the units bound their number -/
def iterate (length : ℕ) : List Segment := segmentsFrom h false length (iteratorPush ⟨a, offset, length⟩ [])

/-! ## Copies -/

def copyRangeTo (length : ℕ) : List UInt16 :=
  match tryGetSegment h a offset length with
  | some segment => segment.units
  | none => flatUnits (iterate h a offset length)

/-- mal_string_copy_segment_latin1_to: wide units are cut to their low byte -/
def narrowSegment : Segment → List UInt8
  | .latin1 units => units
  | .utf16 units => units.map UInt16.toUInt8

def copyNarrowContents : List UInt8 :=
  match tryGetSegment h a 0 (h.length a) with
  | some segment => narrowSegment segment
  | none => (iterate h a 0 (h.length a)).flatMap narrowSegment

def segmentFitsLatin1 : Segment → Bool
  | .latin1 _ => true
  | .utf16 units => unitsFitLatin1 units

def rangeIsLatin1 (length : ℕ) : Bool :=
  if (h.get a).latin1 then true
  else
    match tryGetSegment h a offset length with
    | some segment => segmentFitsLatin1 segment
    | none => (iterate h a offset length).all segmentFitsLatin1

end

/-! ## Slices of unit sequences -/

theorem slice_zero (units : List UInt16) (offset : ℕ) : slice units offset 0 = [] := take_zero

variable {n offset off len : ℕ} {left right : List UInt16}

theorem slice_all {units : List UInt16} (h : units.length = n) : slice units 0 n = units := by
  rw [slice, drop_zero, ← h, take_length]

theorem length_slice {units : List UInt16} {length : ℕ} (h : offset + length ≤ units.length) :
    (slice units offset length).length = length := by
  rw [slice, length_take, length_drop]
  omega

theorem slice_slice {units : List UInt16} {length : ℕ} (h : off + len ≤ length) :
    slice (slice units offset length) off len = slice units (off + offset) len := by
  rw [slice, slice, slice, drop_take, drop_drop, take_take, Nat.min_eq_left (by omega), Nat.add_comm]

theorem slice_append_left {length : ℕ} (h : offset + length ≤ left.length) :
    slice (left ++ right) offset length = slice left offset length := by
  rw [slice, slice, drop_append_of_le_length (by omega), take_append_of_le_length (by rw [length_drop]; omega)]

theorem slice_append_right {length : ℕ} (h : left.length ≤ offset) :
    slice (left ++ right) offset length = slice right (offset - left.length) length := by
  rw [slice, slice, drop_append, drop_eq_nil_of_le h, nil_append]

theorem slice_append_both {length : ℕ} (h : offset ≤ left.length)
    (hlen : left.length - offset ≤ length) : slice (left ++ right) offset length =
      slice left offset (left.length - offset) ++ slice right 0 (length - (left.length - offset)) := by
  rw [slice, slice, drop_append_of_le_length h, take_append, length_drop]
  congr 1
  rw [take_of_length_le (by rw [length_drop]; omega), take_of_length_le (by rw [length_drop])]

theorem slice_payload {payload : Segment} (offset length : ℕ) :
    ((payload.drop offset).take length).units = slice payload.units offset length := by
  rw [Segment.units_take, Segment.units_drop, slice]

/-! ## Segments are slices -/

section Segments

variable {h : StringHeap}

variable {length a : ℕ} {segment payload : Segment} {part part' : IteratorPart}
  {stack stack' : List IteratorPart}

theorem segmentFrom_units (hok : HeapOk h) (fuel a offset : ℕ) (segment : Segment) (ha : a < h.size)
    (hle : offset + length ≤ h.length a) (hsome : segmentFrom h fuel a offset length = some segment) :
    segment.units = slice (units h a) offset length := by
  induction fuel generalizing a offset segment with
  | zero => cases hsome
  | succ fuel ih =>
    rw [segmentFrom] at hsome
    cases hs : (h.get a).storage with
    | flat kind payload | builder payload capacity =>
      rw [hs] at hsome
      cases hsome
      rw [slice_payload, units_of_leaf (by rw [StringHeap.leaf?, hs])]
    | dependent latin1 parent sliceOffset =>
      rw [hs] at hsome
      obtain ⟨hp, payload, hleaf, hfit⟩ := hok.dependent ha hs
      have hparent := length_units hok parent (by omega)
      rw [units_of_leaf hleaf] at hparent
      rw [ih parent (offset + sliceOffset) segment (by omega) (by omega) hsome, units_dependent hok ha hs, ← slice,
        slice_slice hle]
    | cons latin1 left right =>
      rw [hs] at hsome
      have hshape := hok.cons ha hs
      have hleft := length_units hok left (by omega)
      rw [units_cons hok ha hs]
      dsimp only at hsome
      split_ifs at hsome with h1 h2
      · rw [ih right _ segment (by omega) (by omega) hsome, slice_append_right (by omega), hleft]
      · rw [ih left _ segment (by omega) (by omega) hsome, slice_append_left (by omega)]

theorem tryGetSegment_units (hok : HeapOk h) (ha : a < h.size)
    (hle : offset + length ≤ h.length a) (hs : tryGetSegment h a offset length = some segment) :
    segment.units = slice (units h a) offset length := by
  rw [tryGetSegment] at hs
  split_ifs at hs with hzero
  · cases hs
    rw [hzero]
    rfl
  · exact segmentFrom_units hok _ a offset segment ha hle hs

theorem tryGetSegment_of_not_cons (hok : HeapOk h) (ha : a < h.size) (hcons : h.isCons a = false) (offset length : ℕ) :
    ∃ segment, tryGetSegment h a offset length = some segment := by
  rw [tryGetSegment]
  split_ifs with hzero
  · exact ⟨_, rfl⟩
  unfold StringHeap.isCons at hcons
  rw [segmentFrom]
  cases hs : (h.get a).storage with
  | flat kind payload | builder payload capacity => exact ⟨_, rfl⟩
  | cons latin1 left right => rw [hs] at hcons; cases hcons
  | dependent latin1 parent sliceOffset =>
    obtain ⟨hp, payload, hleaf, -⟩ := hok.dependent ha hs
    obtain ⟨f, rfl⟩ : ∃ f, a = f + 1 := ⟨a - 1, by omega⟩
    dsimp only
    rw [segmentFrom]
    unfold StringHeap.leaf? at hleaf
    cases hps : (h.get parent).storage <;> rw [hps] at hleaf <;> cases hleaf <;> exact ⟨_, rfl⟩

/-! ## The iterator gives slices -/

/-- a range of an existing string -/
structure PartOk (h : StringHeap) (part : IteratorPart) : Prop where
  string : part.string < h.size
  inside : part.offset + part.length ≤ h.length part.string
  nonempty : 0 < part.length

def partUnits (h : StringHeap) (part : IteratorPart) : List UInt16 := slice (units h part.string) part.offset part.length

def turned (reverse : Bool) (units : List UInt16) : List UInt16 := if reverse then units.reverse else units

theorem length_turned (reverse : Bool) (units : List UInt16) : (turned reverse units).length = units.length := by
  cases reverse with
  | false => rfl
  | true => exact length_reverse

def stackUnits (h : StringHeap) (reverse : Bool) (stack : List IteratorPart) : List UInt16 :=
  stack.flatMap fun part => turned reverse (partUnits h part)

section

variable {reverse : Bool} {r : Segment × List IteratorPart} {a' offset' length' : ℕ}

theorem stackUnits_cons (part : IteratorPart) (stack : List IteratorPart) :
    stackUnits h reverse (part :: stack) = turned reverse (partUnits h part) ++ stackUnits h reverse stack := flatMap_cons

/-- the stack and what was given denote what the stack did -/
structure Descends (h : StringHeap) (reverse : Bool) (part : IteratorPart) (stack : List IteratorPart)
    (r : Segment × List IteratorPart) : Prop where
  denotes : turned reverse r.1.units ++ stackUnits h reverse r.2 = stackUnits h reverse (part :: stack)
  stack : ∀ p ∈ r.2, PartOk h p
  nonempty : 0 < r.1.units.length

theorem Descends.of_eq (hd : Descends h reverse ⟨a', offset', length'⟩ stack r)
    (heq : slice (units h a') offset' length' = slice (units h a) offset length) :
    Descends h reverse ⟨a, offset, length⟩ stack r :=
  ⟨hd.denotes.trans (congrArg (turned reverse · ++ stackUnits h reverse stack) heq), hd.stack, hd.nonempty⟩

theorem Descends.of_push (hpart : PartOk h part) (hstack : ∀ p ∈ stack, PartOk h p)
    (hd : (∀ p ∈ part :: stack, PartOk h p) → Descends h reverse part' (part :: stack) r)
    (hunits : turned reverse (slice (units h a) offset length) =
      turned reverse (partUnits h part') ++ turned reverse (partUnits h part)) :
    Descends h reverse ⟨a, offset, length⟩ stack r := by
  obtain ⟨hu, hs, hn⟩ := hd (forall_mem_cons.2 ⟨hpart, hstack⟩)
  refine ⟨?_, hs, hn⟩
  rw [hu, stackUnits_cons, stackUnits_cons, ← append_assoc, ← hunits]
  rfl

variable (hok : HeapOk h)
include hok

theorem descend_leaf (hpart : PartOk h part) (hstack : ∀ p ∈ stack, PartOk h p) (hleaf : h.leaf? part.string = some payload) :
    Descends h reverse part stack ((payload.drop part.offset).take part.length, stack) := by
  have hlen := length_units hok part.string hpart.string
  have hin := hpart.inside
  refine ⟨?_, hstack, ?_⟩
  · rw [stackUnits_cons, partUnits, slice_payload, units_of_leaf hleaf]
  · rw [slice_payload, ← units_of_leaf hleaf, length_slice (by omega)]
    exact hpart.nonempty

theorem descend_spec (reverse : Bool) (fuel a offset length : ℕ) (stack : List IteratorPart) (hfuel : a < fuel) (ha : a < h.size)
    (hin : offset + length ≤ h.length a) (hpos : 0 < length) (hstack : ∀ p ∈ stack, PartOk h p) :
    Descends h reverse ⟨a, offset, length⟩ stack (descend h reverse fuel ⟨a, offset, length⟩ stack) := by
  induction fuel generalizing a offset length stack with
  | zero => cases hfuel
  | succ fuel ih =>
    rw [descend]
    dsimp only
    cases hs : (h.get a).storage with
    | flat kind payload | builder payload capacity =>
      exact descend_leaf hok ⟨ha, hin, hpos⟩ hstack (by rw [StringHeap.leaf?, hs])
    | dependent latin1 parent sliceOffset =>
      obtain ⟨hp, payload, hleaf, hfit⟩ := hok.dependent ha hs
      have hparent := length_units hok parent (by omega)
      rw [units_of_leaf hleaf] at hparent
      refine (ih parent _ length stack (by omega) (by omega) (by omega) hpos hstack).of_eq ?_
      rw [units_dependent hok ha hs, ← slice, slice_slice hin]
    | cons latin1 left right =>
      have hshape := hok.cons ha hs
      have hleft := length_units hok left (by omega)
      have hunits := units_cons hok ha hs
      have hpush : ∀ {b o n}, b < h.size → o + n ≤ h.length b → 0 < n →
          PartOk h ⟨b, o, n⟩ ∧ iteratorPush ⟨b, o, n⟩ stack = ⟨b, o, n⟩ :: stack :=
        fun hb hin hn => ⟨⟨hb, hin, hn⟩, if_neg hn.ne'⟩
      dsimp only
      split_ifs with h1 h2 hreverse
      · refine (ih right _ length stack (by omega) (by omega) (by omega) hpos hstack).of_eq ?_
        rw [hunits, slice_append_right (by omega), hleft]
      · obtain ⟨hpart, heq⟩ := @hpush left offset (h.length left - offset) (by omega) (by omega) (by omega)
        rw [heq]
        refine .of_push hpart hstack (ih right 0 _ _ (by omega) (by omega) (by omega) (by omega)) ?_
        rw [hunits, slice_append_both (by omega) (by omega), hleft, hreverse]
        exact reverse_append
      · obtain ⟨hpart, heq⟩ := @hpush right 0 (length - (h.length left - offset)) (by omega) (by omega) (by omega)
        rw [heq]
        refine .of_push hpart hstack (ih left offset _ _ (by omega) (by omega) (by omega) (by omega)) ?_
        rw [hunits, slice_append_both (by omega) (by omega), hleft, Bool.eq_false_iff.2 hreverse]
        rfl
      · refine (ih left offset length stack (by omega) (by omega) (by omega) hpos hstack).of_eq ?_
        rw [hunits, slice_append_left (by omega)]

theorem segmentsFrom_units (calls : ℕ) (stack : List IteratorPart) (hstack : ∀ p ∈ stack, PartOk h p)
    (hlen : (stackUnits h reverse stack).length ≤ calls) :
    (segmentsFrom h reverse calls stack).flatMap (fun segment => turned reverse segment.units) = stackUnits h reverse stack ∧
      ∀ segment ∈ segmentsFrom h reverse calls stack, segment.units ≠ [] := by
  induction calls generalizing stack with
  | zero =>
    rw [length_eq_zero_iff.1 (Nat.le_zero.1 hlen)]
    exact ⟨rfl, nofun⟩
  | succ calls ih =>
    cases stack with
    | nil => exact ⟨rfl, nofun⟩
    | cons part stack =>
      obtain ⟨⟨ha, hin, hpos⟩, hrest⟩ := forall_mem_cons.1 hstack
      have hd : Descends h reverse part stack _ := descend_spec hok reverse _ _ _ _ stack (Nat.lt_succ_self _) ha hin hpos hrest
      obtain ⟨hdenotes, hs, hn⟩ := hd
      have hsum := congrArg List.length hdenotes
      rw [length_append, length_turned] at hsum
      obtain ⟨h1, h2⟩ := ih _ hs (by omega)
      rw [segmentsFrom]
      refine ⟨?_, forall_mem_cons.2 ⟨ne_nil_of_length_pos hn, h2⟩⟩
      rw [flatMap_cons, h1, hdenotes]

/-- **The leaves of a range**, in either direction; calls after as many as there are units return false. -/
theorem iterator_units (ha : a < h.size) (hle : offset + length ≤ h.length a) (reverse : Bool) {calls : ℕ}
    (hcalls : length ≤ calls) :
    (segmentsFrom h reverse calls (iteratorPush ⟨a, offset, length⟩ [])).flatMap (fun segment => turned reverse segment.units) =
      turned reverse (slice (units h a) offset length) ∧
    ∀ segment ∈ segmentsFrom h reverse calls (iteratorPush ⟨a, offset, length⟩ []), segment.units ≠ [] := by
  have hstack : (∀ p ∈ iteratorPush ⟨a, offset, length⟩ [], PartOk h p) ∧
      stackUnits h reverse (iteratorPush ⟨a, offset, length⟩ []) = turned reverse (slice (units h a) offset length) := by
    rw [iteratorPush]
    split_ifs with hzero
    · rw [show length = 0 from hzero, slice_zero]
      exact ⟨nofun, by cases reverse <;> rfl⟩
    · exact ⟨forall_mem_singleton.2 ⟨ha, hle, Nat.pos_of_ne_zero hzero⟩, append_nil _⟩
  have hlen := length_units hok a ha
  rw [← hstack.2]
  refine segmentsFrom_units hok calls _ hstack.1 ?_
  rwa [hstack.2, length_turned, length_slice (by omega)]

theorem iterate_units (ha : a < h.size) (hle : offset + length ≤ h.length a) :
    flatUnits (iterate h a offset length) = slice (units h a) offset length ∧
      ∀ segment ∈ iterate h a offset length, segment.units ≠ [] :=
  iterator_units hok ha hle false le_rfl

end

theorem copyRangeTo_eq (hok : HeapOk h) (ha : a < h.size) (hle : offset + length ≤ h.length a) :
    copyRangeTo h a offset length = slice (units h a) offset length := by
  rw [copyRangeTo]
  cases hs : tryGetSegment h a offset length with
  | some segment => exact tryGetSegment_units hok ha hle hs
  | none => exact (iterate_units hok ha hle).1

/-! ## Narrow copies -/

theorem map_narrow {units : List UInt16} (hn : ∀ u ∈ units, u.toNat ≤ 0xFF) :
    (units.map UInt16.toUInt8).map UInt8.toUInt16 = units := by
  rw [map_map]
  refine (map_congr_left fun u hu => ?_).trans (map_id units)
  have hu' := hn u hu
  rw [Function.comp, id, ← UInt16.toNat_inj, UInt8.toNat_toUInt16, UInt16.toNat_toUInt8, Nat.mod_eq_of_lt (by omega)]

theorem units_narrowSegment (hn : ∀ u ∈ segment.units, u.toNat ≤ 0xFF) :
    (narrowSegment segment).map UInt8.toUInt16 = segment.units := by
  cases segment with
  | latin1 units => rfl
  | utf16 units => exact map_narrow hn

theorem units_flatMap_narrow {segments : List Segment} (hn : ∀ u ∈ flatUnits segments, u.toNat ≤ 0xFF) :
    (segments.flatMap narrowSegment).map UInt8.toUInt16 = flatUnits segments := by
  rw [map_flatMap]
  refine congrArg List.flatten (map_congr_left fun segment hmem => units_narrowSegment fun u hu => hn u ?_)
  exact mem_flatMap.2 ⟨segment, hmem, hu⟩

theorem copyNarrowContents_eq (hok : HeapOk h) (ha : a < h.size) (hn : ∀ u ∈ units h a, u.toNat ≤ 0xFF) :
    (copyNarrowContents h a).map UInt8.toUInt16 = units h a := by
  have hall : slice (units h a) 0 (h.length a) = units h a := slice_all (length_units hok a ha)
  rw [copyNarrowContents]
  cases hs : tryGetSegment h a 0 (h.length a) with
  | some segment =>
    have hseg := tryGetSegment_units hok ha (by omega) hs
    rw [hall] at hseg
    rw [← hseg]
    exact units_narrowSegment (hseg ▸ hn)
  | none =>
    have hit := (iterate_units hok ha (by omega : 0 + h.length a ≤ h.length a)).1
    rw [hall] at hit
    rw [← hit] at hn ⊢
    exact units_flatMap_narrow hn

theorem narrow_of_segmentFitsLatin1 (hf : segmentFitsLatin1 segment = true) : ∀ u ∈ segment.units, u.toNat ≤ 0xFF := by
  cases segment with
  | latin1 units => exact narrow_of_payload rfl
  | utf16 units => exact (unitsFitLatin1_iff units).1 hf

theorem rangeIsLatin1_narrow (hok : HeapOk h) (ha : a < h.size) (hle : offset + length ≤ h.length a)
    (hr : rangeIsLatin1 h a offset length = true) : ∀ u ∈ slice (units h a) offset length, u.toNat ≤ 0xFF := by
  rw [rangeIsLatin1] at hr
  split_ifs at hr with hflag
  · intro u hu
    exact (hok.cell a ha).narrow hflag u (mem_of_mem_drop (mem_of_mem_take hu))
  cases hs : tryGetSegment h a offset length with
  | some segment =>
    rw [hs] at hr
    rw [← tryGetSegment_units hok ha hle hs]
    exact narrow_of_segmentFitsLatin1 hr
  | none =>
    rw [hs] at hr
    intro u hu
    rw [← (iterate_units hok ha hle).1] at hu
    obtain ⟨segment, hmem, hu⟩ := mem_flatMap.1 hu
    exact narrow_of_segmentFitsLatin1 (all_eq_true.1 hr segment hmem) u hu

end Segments

end Maligator.HeapString
