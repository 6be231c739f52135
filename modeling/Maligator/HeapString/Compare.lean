/-
Equality and ordering of strings.

Both avoid flattening: two leaves are compared as memory, two ropes cut at the same places are compared leaf by leaf with
shared halves visited once, a rope against a flat string walks the rope, and everything else merges two iterators. The fast
paths have bounded stacks and give up when a rope is too deep for them. `none` is abort().

`Compares`: a result says whether two unit sequences are equal and, unless only equality was asked for, which is smaller.
`comparePrefix_compares`, `compareStructural_compares`, `ropeEqualsSegment_spec`: whatever path is taken, the result is the
one for the units, and no path aborts.
-/
import Maligator.HeapString.Join

namespace Maligator.HeapString

open Text List

/-! ## Segments -/

/-- a loop over two ranges of one length: the first difference decides -/
def scalarCompare {α : Type} [LT α] [DecidableLT α] : List α → List α → Ordering
  | a :: left, b :: right => if a < b then .lt else if b < a then .gt else scalarCompare left right
  | _, _ => .eq

/-- mal_string_compare_code_units: four units at a time until two words differ -/
def compareCodeUnits : List UInt16 → List UInt16 → Option Ordering
  | a0 :: a1 :: a2 :: a3 :: left, b0 :: b1 :: b2 :: b3 :: right =>
    if [a0, a1, a2, a3] ≠ [b0, b1, b2, b3] then
      match scalarCompare [a0, a1, a2, a3] [b0, b1, b2, b3] with
      | .eq => none
      | result => some result
    else compareCodeUnits left right
  | left, right => some (scalarCompare left right)

/-- mal_string_compare_segments; bytes are compared as memcmp does -/
def compareSegments (left : Segment) (leftOffset : ℕ) (right : Segment) (rightOffset length : ℕ) (equalityOnly : Bool) :
    Option Ordering :=
  match (left.drop leftOffset).take length, (right.drop rightOffset).take length with
  | .latin1 a, .latin1 b => some (scalarCompare a b)
  | .utf16 a, .utf16 b =>
    if equalityOnly then some (if a = b then .eq else .gt)
    else compareCodeUnits a b
  | a, b => some (scalarCompare a.units b.units)

/-- mal_string_segments_equal: with two encodings the differences are collected before the one test -/
def segmentsEqual (left right : Segment) (rightOffset length : ℕ) : Bool :=
  match left.take length, (right.drop rightOffset).take length with
  | .latin1 a, .latin1 b => a == b
  | .utf16 a, .utf16 b => a == b
  | a, b => (a.units.zip b.units).foldl (fun difference pair => difference ||| (pair.1 ^^^ pair.2)) 0 == 0

/-! ## Strings -/

/-- an iterator's segment with the offset reached in it, moved to the next segment at its end -/
def nextSegment : List Segment → ℕ → List Segment × ℕ
  | [], _ => ([], 0)
  | a :: segments, offset => if offset = a.length then (segments, 0) else (a :: segments, offset)

/-- the loop of mal_string_compare_prefix; a round takes at least one unit -/
def comparePrefixLoop (equalityOnly : Bool) : ℕ → List Segment × ℕ → List Segment × ℕ → ℕ → Option Ordering
  | fuel + 1, (a :: as, leftOffset), (b :: bs, rightOffset), length =>
    let take := min (a.length - leftOffset) (b.length - rightOffset)
    match compareSegments a leftOffset b rightOffset take equalityOnly with
    | some .eq =>
      if length - take = 0 then some .eq
      else
        comparePrefixLoop equalityOnly fuel (nextSegment (a :: as) (leftOffset + take))
          (nextSegment (b :: bs) (rightOffset + take)) (length - take)
    | result => result
  | _, _, _, _ => none

def comparePrefix (h : StringHeap) (left right length : ℕ) (equalityOnly : Bool) : Option Ordering :=
  if length = 0 then some .eq
  else
    match tryGetSegment h left 0 length, tryGetSegment h right 0 length with
    | some a, some b => compareSegments a 0 b 0 length equalityOnly
    | _, _ => comparePrefixLoop equalityOnly length (iterate h left 0 length, 0) (iterate h right 0 length, 0) length

def structuralCompareCapacity : ℕ := 64

/-- the loop of mal_string_compare_structural over its stack of pairs; `some none` is a return of false -/
def compareStructuralLoop (h : StringHeap) (equalityOnly : Bool) : ℕ → List (ℕ × ℕ) → Option (Option Ordering)
  | _, [] => some (some .eq)
  | 0, _ => none
  | fuel + 1, (left, right) :: stack =>
    if left = right then compareStructuralLoop h equalityOnly fuel stack
    else if h.length left ≠ h.length right then some none
    else
      match (h.get left).storage, (h.get right).storage with
      | .cons _ left1 left2, .cons _ right1 right2 =>
        if h.length left1 ≠ h.length right1 then some none
        -- equal halves on both sides need one visit
        else if left1 = left2 ∧ right1 = right2 then
          if stack.length = structuralCompareCapacity then some none
          else compareStructuralLoop h equalityOnly fuel ((left1, right1) :: stack)
        else if stack.length > structuralCompareCapacity - 2 then some none
        else compareStructuralLoop h equalityOnly fuel ((left1, right1) :: (left2, right2) :: stack)
      | .cons .., _ => some none
      | _, .cons .. => some none
      | _, _ =>
        match comparePrefix h left right (h.length left) equalityOnly with
        | some .eq => compareStructuralLoop h equalityOnly fuel stack
        | some result => some (some result)
        | none => none

/-- mal_string_compare_structural; a rope of n units has less than 2n nodes -/
def compareStructural (h : StringHeap) (left right : ℕ) (equalityOnly : Bool) : Option (Option Ordering) :=
  if h.length left ≠ h.length right ∨ !h.isCons left ∨ !h.isCons right then some none
  else compareStructuralLoop h equalityOnly (2 * h.length left) [(left, right)]

inductive RopeEquality where
  | different
  | equal
  | tooDeep
  deriving DecidableEq, Repr

/-- the loop of mal_string_rope_equals_segment -/
def ropeEqualsLoop (h : StringHeap) (flat : Segment) : ℕ → ℕ → List ℕ → ℕ → Option RopeEquality
  | 0, _, _, _ => none
  | fuel + 1, node, pending, offset =>
    match (h.get node).storage with
    | .cons _ left right =>
      if pending.length = structuralCompareCapacity then some .tooDeep
      else ropeEqualsLoop h flat fuel left (right :: pending) offset
    | _ =>
      if !segmentsEqual (leafSegment h node) flat offset (h.length node) then some .different
      else
        match pending with
        | [] => some .equal
        | next :: pending => ropeEqualsLoop h flat fuel next pending (offset + h.length node)

def ropeEqualsSegment (h : StringHeap) (rope : ℕ) (flat : Segment) : Option RopeEquality :=
  ropeEqualsLoop h flat (2 * h.length rope) rope [] 0

/-- mal_string_equals_same_length after its flat paths -/
def equalsByParts (h : StringHeap) (left right : ℕ) : Option Bool :=
  match compareStructural h left right true with
  | none => none
  | some (some result) => some (result == .eq)
  | some none => (comparePrefix h left right (h.length left) true).map (· == .eq)

def equalsFlat (h : StringHeap) (left right rope : ℕ) (flat : Segment) : Option Bool :=
  match ropeEqualsSegment h rope flat with
  | none => none
  | some .tooDeep => equalsByParts h left right
  | some equality => some (equality == .equal)

def equalsSameLength (h : StringHeap) (left right : ℕ) : Option Bool :=
  if (h.get left).hashValid ∧ (h.get right).hashValid ∧ (h.get left).hash ≠ (h.get right).hash then some false
  else if h.length left = 0 then some true
  else
    match h.flat? left, h.flat? right with
    | some a, some b => some (segmentsEqual a b 0 (h.length left))
    | some a, none => equalsFlat h left right right a
    | none, some b => equalsFlat h left right left b
    | none, none => equalsByParts h left right

/-- mal_string_equals: two different property atoms are not looked at -/
def stringEquals (h : StringHeap) (left right : ℕ) : Option Bool :=
  if left = right then some true
  else if h.length left ≠ h.length right then some false
  else if (h.get left).propertyAtom && (h.get right).propertyAtom then some false
  else equalsSameLength h left right

def stringCompare (h : StringHeap) (left right : ℕ) : Option Ordering :=
  if left = right then some .eq
  else
    match compareStructural h left right false with
    | none => none
    | some (some result) => some result
    | some none =>
      match comparePrefix h left right (min (h.length left) (h.length right)) false with
      | some .eq =>
        if h.length left < h.length right then some .lt else if h.length left > h.length right then some .gt else some .eq
      | result => result

/-! ## Ordering unit sequences -/

section Order

variable {α : Type} [Ord α] [LT α] [LE α] [Std.LawfulOrderOrd α] [Std.LawfulOrderLT α] [DecidableLT α]

theorem scalarCompare_eq [Std.LawfulEqOrd α] : ∀ {left right : List α}, left.length = right.length →
    scalarCompare left right = compare left right
  | [], [], _ => List.compare_nil_nil.symm
  | a :: left, b :: right, hlen => by
    rw [scalarCompare, List.compare_cons_cons, scalarCompare_eq (Nat.succ_inj.1 hlen)]
    split_ifs with h1 h2
    · rw [Std.compare_eq_lt.2 h1]
      rfl
    · rw [Std.compare_eq_gt.2 h2]
      rfl
    have heq : compare a b = .eq := by
      cases hc : compare a b with
      | lt => exact absurd (Std.compare_eq_lt.1 hc) h1
      | gt => exact absurd (Std.compare_eq_gt.1 hc) h2
      | eq => rfl
    rw [heq]
    rfl

end Order

variable {x y : List UInt16} {left right : Segment} {leftOffset rightOffset offset n : ℕ}

theorem compare_append (hlen : x.length = y.length) (x' y' : List UInt16) :
    compare (x ++ x') (y ++ y') = (compare x y).then (compare x' y') := by
  induction x generalizing y with
  | nil =>
    rw [length_eq_zero_iff.1 hlen.symm]
    rfl
  | cons a x ih =>
    cases y with
    | nil => cases hlen
    | cons b y =>
      rw [cons_append, cons_append, List.compare_cons_cons, List.compare_cons_cons, ih (Nat.succ_inj.1 hlen),
        Ordering.then_assoc]

theorem compare_self_eq (x : List UInt16) : compare x x = .eq := Std.ReflCmp.compare_self

structure Compares (equalityOnly : Bool) (x y : List UInt16) (result : Ordering) : Prop where
  eq : result = .eq ↔ x = y
  order : equalityOnly = false → result = compare x y

namespace Compares

variable {eqOnly : Bool} {x' y' : List UInt16} {r r' : Ordering}

theorem of_compare (eqOnly : Bool) (x y : List UInt16) : Compares eqOnly x y (compare x y) :=
  ⟨Std.LawfulEqCmp.compare_eq_iff_eq, fun _ => rfl⟩

theorem self (eqOnly : Bool) (x : List UInt16) : Compares eqOnly x x .eq :=
  ⟨⟨fun _ => rfl, fun _ => rfl⟩, fun _ => (compare_self_eq x).symm⟩

theorem front (h : Compares eqOnly x y r) (hr : r ≠ .eq) (hlen : x.length = y.length) (x' y' : List UInt16) :
    Compares eqOnly (x ++ x') (y ++ y') r := by
  constructor
  · exact ⟨fun he => absurd he hr, fun he => h.eq.2 (append_inj_left he hlen)⟩
  intro ho
  have hc := h.order ho
  rw [compare_append hlen, ← hc]
  cases r with
  | eq => exact absurd rfl hr
  | lt => rfl
  | gt => rfl

theorem prepend (h : Compares eqOnly x' y' r) (x : List UInt16) : Compares eqOnly (x ++ x') (x ++ y') r := by
  constructor
  · rw [h.eq, append_cancel_left_eq]
  · intro ho
    rw [compare_append rfl, compare_self_eq, h.order ho]
    rfl

theorem double (hlen : x.length = y.length) (h : Compares eqOnly (x ++ x') (y ++ y') r) :
    Compares eqOnly (x ++ x ++ x') (y ++ y ++ y') r := by
  constructor
  · rw [h.eq]
    constructor
    · intro he
      rw [append_assoc, append_assoc, he, append_inj_left he hlen]
    · intro he
      rw [append_assoc, append_assoc] at he
      exact append_inj_right he hlen
  · intro ho
    rw [h.order ho, append_assoc, append_assoc, compare_append hlen, compare_append hlen,
      compare_append hlen]
    cases compare x y <;> rfl

end Compares

/-! ## Segments are compared by their units -/

theorem compare_map_toUInt16 (x y : List UInt8) :
    compare (x.map UInt8.toUInt16) (y.map UInt8.toUInt16) = compare x y := by
  have hunit : ∀ a b : UInt8, compare a.toUInt16 b.toUInt16 = compare a b := fun a b => by
    have hlt : a.toUInt16 < b.toUInt16 ↔ a < b := by
      rw [UInt16.lt_iff_toNat_lt, UInt8.lt_iff_toNat_lt, UInt8.toNat_toUInt16, UInt8.toNat_toUInt16]
    have heq : a.toUInt16 = b.toUInt16 ↔ a = b := by
      rw [← UInt16.toNat_inj, ← UInt8.toNat_inj, UInt8.toNat_toUInt16, UInt8.toNat_toUInt16]
    change compareOfLessAndEq _ _ = compareOfLessAndEq _ _
    simp only [compareOfLessAndEq, hlt, heq]
  induction x generalizing y with
  | nil => cases y <;> rfl
  | cons a x ih =>
    cases y with
    | nil => rfl
    | cons b y => rw [map_cons, map_cons, List.compare_cons_cons, List.compare_cons_cons, ih, hunit]

theorem compareCodeUnits_eq : ∀ (left right : List UInt16), left.length = right.length →
    compareCodeUnits left right = some (compare left right) := by
  intro left right
  fun_induction compareCodeUnits left right with
  | case1 a0 a1 a2 a3 left b0 b1 b2 b3 right hne heq =>
    intro _
    rw [scalarCompare_eq (by rfl)] at heq
    exact absurd (Std.LawfulEqCmp.compare_eq_iff_eq.1 heq) hne
  | case2 a0 a1 a2 a3 left b0 b1 b2 b3 right hne hres =>
    intro _
    rw [scalarCompare_eq (by rfl)] at hres ⊢
    have hc := (Compares.of_compare false _ _).front hres (rfl : [a0, a1, a2, a3].length = [b0, b1, b2, b3].length) left right
    exact congrArg some (hc.order rfl)
  | case3 a0 a1 a2 a3 left b0 b1 b2 b3 right he ih =>
    intro hlen
    have he' : [a0, a1, a2, a3] = [b0, b1, b2, b3] := not_not.1 he
    have hlen' : left.length = right.length := by simpa using hlen
    have hc := (Compares.of_compare false left right).prepend [a0, a1, a2, a3]
    rw [ih hlen', hc.order rfl]
    nth_rewrite 2 [he']
    rfl
  | case4 left right _ =>
    intro hlen
    rw [scalarCompare_eq hlen]

theorem compareSegments_compares {length : ℕ} (equalityOnly : Bool)
    (hlen : (slice left.units leftOffset length).length = (slice right.units rightOffset length).length) :
    ∃ result, compareSegments left leftOffset right rightOffset length equalityOnly = some result ∧
      Compares equalityOnly (slice left.units leftOffset length) (slice right.units rightOffset length) result := by
  rw [← slice_payload, ← slice_payload] at hlen ⊢
  rw [compareSegments]
  generalize (left.drop leftOffset).take length = a at hlen ⊢
  generalize (right.drop rightOffset).take length = b at hlen ⊢
  have hmixed : Compares equalityOnly a.units b.units (scalarCompare a.units b.units) := by
    rw [scalarCompare_eq hlen]
    exact .of_compare _ _ _
  cases a with
  | latin1 x =>
    cases b with
    | latin1 y =>
      simp only [Segment.units, length_map] at hlen
      refine ⟨_, rfl, ?_⟩
      rw [scalarCompare_eq hlen, ← compare_map_toUInt16]
      exact .of_compare _ _ _
    | utf16 y => exact ⟨_, rfl, hmixed⟩
  | utf16 x =>
    cases b with
    | latin1 y => exact ⟨_, rfl, hmixed⟩
    | utf16 y =>
      cases equalityOnly with
      | false => exact ⟨_, compareCodeUnits_eq x y hlen, .of_compare _ _ _⟩
      | true =>
        refine ⟨_, rfl, ?_, by simp⟩
        split_ifs with he
        · exact ⟨fun _ => he, fun _ => rfl⟩
        · exact ⟨by simp, fun h => absurd h he⟩

theorem collected_eq_zero (pairs : List (UInt16 × UInt16)) (d : UInt16) :
    pairs.foldl (fun difference pair => difference ||| (pair.1 ^^^ pair.2)) d = 0 ↔ d = 0 ∧ ∀ p ∈ pairs, p.1 = p.2 := by
  induction pairs generalizing d with
  | nil => simp
  | cons p pairs ih =>
    rw [foldl_cons, ih, UInt16.or_eq_zero_iff, UInt16.xor_eq_zero_iff, forall_mem_cons, and_assoc]

theorem zip_forall_eq (hlen : x.length = y.length) : (∀ p ∈ x.zip y, p.1 = p.2) ↔ x = y := by
  induction x generalizing y with
  | nil =>
    rw [length_eq_zero_iff.1 hlen.symm]
    simp
  | cons a x ih =>
    cases y with
    | nil => cases hlen
    | cons b y => rw [zip_cons_cons, forall_mem_cons, ih (Nat.succ_inj.1 hlen), List.cons.injEq]

theorem segmentsEqual_iff {length : ℕ} (hleft : left.units.length = length)
    (hright : rightOffset + length ≤ right.units.length) :
    segmentsEqual left right rightOffset length = true ↔ left.units = slice right.units rightOffset length := by
  have hlen : (left.take length).units.length = ((right.drop rightOffset).take length).units.length := by
    rw [slice_payload, length_slice hright, Segment.units_take, take_of_length_le hleft.le, hleft]
  have htake : left.units = (left.take length).units := by rw [Segment.units_take, take_of_length_le hleft.le]
  rw [← slice_payload, htake, segmentsEqual]
  generalize left.take length = a at hlen ⊢
  generalize (right.drop rightOffset).take length = b at hlen ⊢
  have hmixed : ((a.units.zip b.units).foldl (fun difference pair => difference ||| (pair.1 ^^^ pair.2)) 0 == 0) = true ↔
      a.units = b.units := by
    rw [beq_iff_eq, collected_eq_zero, zip_forall_eq hlen]
    exact ⟨fun h => h.2, fun h => ⟨rfl, h⟩⟩
  have hinj : Function.Injective UInt8.toUInt16 := fun a b h => by
    rw [← UInt8.toNat_inj, ← UInt8.toNat_toUInt16, h, UInt8.toNat_toUInt16]
  cases a with
  | latin1 x =>
    cases b with
    | latin1 y => exact beq_iff_eq.trans (List.map_inj_right fun _ _ h => hinj h).symm
    | utf16 y => exact hmixed
  | utf16 x =>
    cases b with
    | latin1 y => exact hmixed
    | utf16 y => exact beq_iff_eq

/-! ## Merging two iterators -/

def restUnits (state : List Segment × ℕ) : List UInt16 := (flatUnits state.1).drop state.2

variable {segments : List Segment} {a : Segment}

theorem restUnits_nextSegment : restUnits (nextSegment (a :: segments) offset) = restUnits (a :: segments, offset) := by
  rw [nextSegment]
  split_ifs with he
  · rw [he]
    exact drop_left.symm
  · rfl

/-- what the loop of the prefix comparison knows of one side -/
structure Ready (state : List Segment × ℕ) : Prop where
  nonempty : ∀ segment ∈ state.1, segment.units ≠ []
  inside : ∀ a segments, state.1 = a :: segments → state.2 < a.length

theorem ready_start (h : ∀ segment ∈ segments, segment.units ≠ []) : Ready (segments, 0) :=
  ⟨h, fun a rest he => length_pos_iff.2 (h a (by rw [show segments = a :: rest from he]; exact mem_cons_self ..))⟩

theorem Ready.next (h : Ready (a :: segments, offset))
    (hn : offset + n ≤ a.length) : Ready (nextSegment (a :: segments) (offset + n)) := by
  rw [nextSegment]
  split_ifs with he
  · exact ready_start fun s hs => h.nonempty s (mem_cons_of_mem _ hs)
  refine ⟨h.nonempty, fun b rest heq => ?_⟩
  obtain ⟨rfl, rfl⟩ := List.cons.inj heq
  omega

theorem comparePrefixLoop_compares (equalityOnly : Bool) : ∀ (fuel length : ℕ) (left right : List Segment × ℕ),
    Ready left → Ready right → (restUnits left).length = length → (restUnits right).length = length → 0 < length → length ≤ fuel →
    ∃ result, comparePrefixLoop equalityOnly fuel left right length = some result ∧
      Compares equalityOnly (restUnits left) (restUnits right) result := by
  intro fuel
  induction fuel with
  | zero => intro length _ _ _ _ _ _ hpos hle; omega
  | succ fuel ih =>
    rintro length ⟨as, leftOffset⟩ ⟨bs, rightOffset⟩ hl hr hll hlr hpos hle
    cases as with
    | nil => simp [restUnits] at hll; omega
    | cons a as =>
      cases bs with
      | nil => simp [restUnits] at hlr; omega
      | cons b bs =>
        have hla := hl.inside a as rfl
        have hrb := hr.inside b bs rfl
        rw [comparePrefixLoop]
        generalize htake : min (a.length - leftOffset) (b.length - rightOffset) = take
        have htl : leftOffset + take ≤ a.units.length := by change _ ≤ a.length; omega
        have htr : rightOffset + take ≤ b.units.length := by change _ ≤ b.length; omega
        -- each side is the range compared now and what is left for later rounds
        have hfront : ∀ {c : Segment} {cs : List Segment} {offset : ℕ}, offset + take ≤ c.units.length →
            restUnits (c :: cs, offset) = slice c.units offset take ++ restUnits (nextSegment (c :: cs) (offset + take)) := by
          intro c cs offset hc
          rw [restUnits_nextSegment, restUnits, restUnits, flatUnits_cons, slice, ← drop_drop]
          rw [drop_append_of_le_length (by omega), drop_append_of_le_length (by rw [length_drop]; omega),
            ← append_assoc, take_append_drop]
        have hsl := length_slice htl
        have hsr := length_slice htr
        obtain ⟨result, hres, hcmp⟩ := compareSegments_compares equalityOnly (hsl.trans hsr.symm)
        rw [hres, hfront htl, hfront htr]
        rw [hfront htl, length_append] at hll
        rw [hfront htr, length_append] at hlr
        by_cases hne : result = .eq
        · subst hne
          have hsame := hcmp.eq.1 rfl
          rw [hsame]
          split_ifs with hzero
          · refine ⟨.eq, rfl, ?_⟩
            have hxl : restUnits (nextSegment (a :: as) (leftOffset + take)) = [] := length_eq_zero_iff.1 (by omega)
            have hxr : restUnits (nextSegment (b :: bs) (rightOffset + take)) = [] := length_eq_zero_iff.1 (by omega)
            rw [hxl, hxr]
            exact .self _ _
          · obtain ⟨result, hrun, hc⟩ := ih (length - take) _ _ (hl.next htl) (hr.next htr) (by omega) (by omega)
              (by omega) (by omega)
            exact ⟨result, hrun, hc.prepend _⟩
        · refine ⟨result, ?_, hcmp.front hne (hsl.trans hsr.symm) _ _⟩
          cases result with
          | eq => exact absurd rfl hne
          | lt | gt => rfl

section Strings

variable {h : StringHeap}

variable {left right : ℕ}

theorem comparePrefix_compares (hok : HeapOk h) {length : ℕ} (hl : left < h.size) (hr : right < h.size)
    (hll : length ≤ h.length left) (hlr : length ≤ h.length right) (equalityOnly : Bool) :
    ∃ result, comparePrefix h left right length equalityOnly = some result ∧
      Compares equalityOnly (slice (units h left) 0 length) (slice (units h right) 0 length) result := by
  have hleft := length_slice (show 0 + length ≤ (units h left).length by rw [length_units hok left hl]; omega)
  have hright := length_slice (show 0 + length ≤ (units h right).length by rw [length_units hok right hr]; omega)
  rw [comparePrefix]
  split_ifs with hzero
  · refine ⟨.eq, rfl, ?_⟩
    rw [hzero]
    exact .self _ _
  obtain ⟨hul, hnl⟩ := iterate_units hok hl (show 0 + length ≤ h.length left by omega)
  obtain ⟨hur, hnr⟩ := iterate_units hok hr (show 0 + length ≤ h.length right by omega)
  have hmerge : ∃ result,
      comparePrefixLoop equalityOnly length (iterate h left 0 length, 0) (iterate h right 0 length, 0) length = some result ∧
        Compares equalityOnly (slice (units h left) 0 length) (slice (units h right) 0 length) result := by
    have hm := comparePrefixLoop_compares equalityOnly length length (iterate h left 0 length, 0) (iterate h right 0 length, 0)
      (ready_start hnl) (ready_start hnr)
    simp only [restUnits, hul, hur] at hm
    exact hm hleft hright (by omega) le_rfl
  cases ha : tryGetSegment h left 0 length with
  | none => exact hmerge
  | some a =>
    cases hb : tryGetSegment h right 0 length with
    | none => exact hmerge
    | some b =>
      have hua := tryGetSegment_units hok hl (by omega) ha
      have hub := tryGetSegment_units hok hr (by omega) hb
      have hsa : slice a.units 0 length = slice (units h left) 0 length := slice_all (by rw [hua, hleft]) |>.trans hua
      have hsb : slice b.units 0 length = slice (units h right) 0 length := slice_all (by rw [hub, hright]) |>.trans hub
      rw [← hsa, ← hsb]
      exact compareSegments_compares equalityOnly (by rw [hsa, hsb, hleft, hright])

theorem comparePrefix_whole (hok : HeapOk h) (hl : left < h.size) (hr : right < h.size)
    (hlen : h.length left = h.length right) (equalityOnly : Bool) :
    ∃ result, comparePrefix h left right (h.length left) equalityOnly = some result ∧
      Compares equalityOnly (units h left) (units h right) result := by
  have hc := comparePrefix_compares hok hl hr le_rfl hlen.le equalityOnly
  rwa [slice_all (length_units hok left hl), slice_all ((length_units hok right hr).trans hlen.symm)] at hc

/-! ## Ropes cut alike -/

def PairsOk (h : StringHeap) (stack : List (ℕ × ℕ)) : Prop :=
  ∀ pair ∈ stack, pair.1 < h.size ∧ pair.2 < h.size ∧ 0 < h.length pair.1

def leftUnits (h : StringHeap) (stack : List (ℕ × ℕ)) : List UInt16 := stack.flatMap fun pair => units h pair.1

def rightUnits (h : StringHeap) (stack : List (ℕ × ℕ)) : List UInt16 := stack.flatMap fun pair => units h pair.2

def rounds (h : StringHeap) (strings : List ℕ) : ℕ := (strings.map fun a => 2 * h.length a - 1).sum

def Structural (equalityOnly : Bool) (x y : List UInt16) (outcome : Option (Option Ordering)) : Prop :=
  outcome = some none ∨ ∃ result, outcome = some (some result) ∧ Compares equalityOnly x y result

variable {flat : Segment} {equalityOnly : Bool}

theorem Structural.imp {x' y' : List UInt16} {outcome : Option (Option Ordering)}
    (hs : Structural equalityOnly x y outcome)
    (himp : ∀ result, Compares equalityOnly x y result → Compares equalityOnly x' y' result) :
    Structural equalityOnly x' y' outcome :=
  hs.imp_right fun ⟨result, h1, h2⟩ => ⟨result, h1, himp result h2⟩

theorem compareStructuralLoop_spec (hok : HeapOk h) (equalityOnly : Bool) : ∀ (fuel : ℕ) (stack : List (ℕ × ℕ)),
    PairsOk h stack → rounds h (stack.map Prod.fst) ≤ fuel →
    Structural equalityOnly (leftUnits h stack) (rightUnits h stack) (compareStructuralLoop h equalityOnly fuel stack) := by
  intro fuel
  induction fuel with
  | zero =>
    intro stack hp hr
    cases stack with
    | nil => exact .inr ⟨.eq, rfl, .self _ _⟩
    | cons pair stack =>
      have hpos := (hp pair (mem_cons_self ..)).2.2
      simp only [rounds, map_cons, sum_cons] at hr
      omega
  | succ fuel ih =>
    rintro (_ | ⟨⟨left, right⟩, stack⟩) hp hr
    · exact .inr ⟨.eq, rfl, .self _ _⟩
    obtain ⟨⟨hl, hrt, hpos⟩, hstack⟩ := forall_mem_cons.1 hp
    dsimp only at hl hrt hpos
    simp only [rounds, map_cons, sum_cons] at hr
    change Structural equalityOnly (units h left ++ leftUnits h stack) (units h right ++ rightUnits h stack) _
    have hrest : Structural equalityOnly (leftUnits h stack) (rightUnits h stack)
        (compareStructuralLoop h equalityOnly fuel stack) := ih stack hstack (by rw [rounds]; omega)
    rw [compareStructuralLoop]
    by_cases hsame : left = right
    · subst hsame
      rw [if_pos rfl]
      exact hrest.imp fun _ hc => hc.prepend _
    rw [if_neg hsame]
    by_cases hlen : h.length left = h.length right
    swap
    · rw [if_pos hlen]
      exact .inl rfl
    rw [if_neg (not_not.2 hlen)]
    have hulen : (units h left).length = (units h right).length := by
      rw [length_units hok left hl, length_units hok right hrt, hlen]
    -- two leaves: a difference decides, equality leaves it to the rest of the stack
    have hleaves : Structural equalityOnly (units h left ++ leftUnits h stack) (units h right ++ rightUnits h stack)
        (match comparePrefix h left right (h.length left) equalityOnly with
        | some .eq => compareStructuralLoop h equalityOnly fuel stack
        | some result => some (some result)
        | none => none) := by
      obtain ⟨result, hres, hcmp⟩ := comparePrefix_whole hok hl hrt hlen equalityOnly
      rw [hres]
      cases result with
      | eq =>
        rw [hcmp.eq.1 rfl]
        exact hrest.imp fun _ hc => hc.prepend _
      | lt => exact .inr ⟨.lt, rfl, hcmp.front (by decide) hulen _ _⟩
      | gt => exact .inr ⟨.gt, rfl, hcmp.front (by decide) hulen _ _⟩
    cases hsl : (h.get left).storage with
    | cons latin1 left1 left2 =>
      cases hsr : (h.get right).storage with
      | cons latin1' right1 right2 =>
        obtain ⟨h1, h2, h3, h4, h5⟩ := cons_parts hok hl hsl
        obtain ⟨h1', h2', -, -, h5'⟩ := cons_parts hok hrt hsr
        rw [units_cons hok hl hsl, units_cons hok hrt hsr]
        dsimp only
        by_cases hcut : h.length left1 = h.length right1
        swap
        · rw [if_pos hcut]
          exact .inl rfl
        rw [if_neg (not_not.2 hcut)]
        by_cases hshared : left1 = left2 ∧ right1 = right2
        · obtain ⟨rfl, rfl⟩ := hshared
          rw [if_pos ⟨rfl, rfl⟩]
          split_ifs
          · exact .inl rfl
          refine (ih ((left1, right1) :: stack) (forall_mem_cons.2 ⟨⟨h1, h1', h3⟩, hstack⟩) ?_).imp fun _ hc =>
            Compares.double ?_ hc
          · simp only [rounds, map_cons, sum_cons]
            omega
          · rw [length_units hok _ h1, length_units hok _ h1', hcut]
        · split_ifs
          · exact .inl rfl
          have hpush := ih ((left1, right1) :: (left2, right2) :: stack)
            (forall_mem_cons.2 ⟨⟨h1, h1', h3⟩, forall_mem_cons.2 ⟨⟨h2, h2', h4⟩, hstack⟩⟩) (by
              simp only [rounds, map_cons, sum_cons]
              omega)
          rw [append_assoc, append_assoc]
          exact hpush
      | flat kind payload | dependent latin1' parent offset | builder payload capacity => exact .inl rfl
    | flat kind payload | dependent latin1 parent offset | builder payload capacity =>
      cases hsr : (h.get right).storage <;> first | exact .inl rfl | exact hleaves

theorem compareStructural_compares (hok : HeapOk h) (hl : left < h.size) (hr : right < h.size) (equalityOnly : Bool) :
    Structural equalityOnly (units h left) (units h right) (compareStructural h left right equalityOnly) := by
  rw [compareStructural]
  split_ifs with hno
  · exact .inl rfl
  push Not at hno
  have hpos := length_pos_of_isCons hok hl (by simpa using hno.2.1)
  have hs := compareStructuralLoop_spec hok equalityOnly (2 * h.length left) [(left, right)]
    (List.forall_mem_singleton.2 ⟨hl, hr, hpos⟩) (by
      simp only [rounds, map_cons, map_nil, sum_cons, sum_nil]
      omega)
  simpa only [leftUnits, rightUnits, flatMap_cons, flatMap_nil, append_nil] using hs

/-! ## A rope against one segment -/

def RopeAnswer (x y : List UInt16) (outcome : Option RopeEquality) : Prop :=
  outcome = some .tooDeep ∨ (outcome = some .equal ∧ x = y) ∨ (outcome = some .different ∧ x ≠ y)

theorem ropeEqualsLoop_leaf {fuel node : ℕ} {pending : List ℕ} (hcons : h.isCons node = false) :
    ropeEqualsLoop h flat (fuel + 1) node pending offset =
      if !segmentsEqual (leafSegment h node) flat offset (h.length node) then some .different else match pending with
        | [] => some .equal
        | next :: pending => ropeEqualsLoop h flat fuel next pending (offset + h.length node) := by
  unfold StringHeap.isCons at hcons
  rw [ropeEqualsLoop.eq_def]
  dsimp only
  cases hs : (h.get node).storage with
  | cons latin1 left right => rw [hs] at hcons; cases hcons
  | _ => rfl

theorem ropeEqualsLoop_spec (hok : HeapOk h) (flat : Segment) : ∀ (fuel node : ℕ) (pending : List ℕ) (offset : ℕ),
    (∀ a ∈ node :: pending, a < h.size ∧ 0 < h.length a) → rounds h (node :: pending) ≤ fuel →
    offset + ((node :: pending).flatMap (units h)).length = flat.units.length →
    RopeAnswer ((node :: pending).flatMap (units h)) (flat.units.drop offset) (ropeEqualsLoop h flat fuel node pending offset) := by
  intro fuel
  induction fuel with
  | zero =>
    intro node pending offset hall hr
    have hpos := (hall node (mem_cons_self ..)).2
    simp only [rounds, map_cons, sum_cons] at hr
    omega
  | succ fuel ih =>
    intro node pending offset hall hr hlen
    obtain ⟨⟨hn, hpos⟩, hpend⟩ := forall_mem_cons.1 hall
    have hnode := length_units hok node hn
    cases hcons : h.isCons node with
    | false =>
      rw [ropeEqualsLoop_leaf hcons]
      rw [flatMap_cons, length_append] at hlen
      have hls := units_leafSegment hok hn hcons
      have heq : segmentsEqual (leafSegment h node) flat offset (h.length node) = true ↔ _ :=
        segmentsEqual_iff (by rw [hls, hnode]) (by omega)
      have hsplit : flat.units.drop offset = slice flat.units offset (h.length node) ++ flat.units.drop (offset + h.length node) := by
        rw [slice, ← drop_drop, take_append_drop]
      rw [hls] at heq
      rw [flatMap_cons, hsplit]
      by_cases hsame : segmentsEqual (leafSegment h node) flat offset (h.length node) = true
      · rw [hsame, ← heq.1 hsame]
        cases pending with
        | nil =>
          refine .inr (.inl ⟨rfl, ?_⟩)
          rw [drop_eq_nil_of_le (by simp at hlen; omega)]
          rfl
        | cons next pending =>
          have hnext := ih next pending (offset + h.length node) hpend
            (by simp only [rounds, map_cons, sum_cons] at hr ⊢; omega) (by omega)
          rcases hnext with hd | ⟨he, hxy⟩ | ⟨hne, hxy⟩
          · exact .inl hd
          · exact .inr (.inl ⟨he, by rw [hxy]⟩)
          · exact .inr (.inr ⟨hne, fun h => hxy (append_cancel_left h)⟩)
      · have hne := mt heq.2 hsame
        rw [Bool.not_eq_true] at hsame
        rw [hsame]
        refine .inr (.inr ⟨rfl, fun h => hne (append_inj_left h ?_)⟩)
        rw [hnode, length_slice (by omega)]
    | true =>
      obtain ⟨latin1, left, right, hs⟩ := storage_of_isCons hcons
      rw [ropeEqualsLoop.eq_def]
      dsimp only
      rw [hs]
      dsimp only
      split_ifs with hdeep
      · exact .inl rfl
      obtain ⟨h1, h2, h3, h4, h5⟩ := cons_parts hok hn hs
      have hflat : (node :: pending).flatMap (units h) = (left :: right :: pending).flatMap (units h) := by
        simp only [flatMap_cons, units_cons hok hn hs, append_assoc]
      rw [hflat] at hlen ⊢
      refine ih left (right :: pending) offset ?_ ?_ hlen
      · exact forall_mem_cons.2 ⟨⟨h1, h3⟩, forall_mem_cons.2 ⟨⟨h2, h4⟩, hpend⟩⟩
      · simp only [rounds, map_cons, sum_cons] at hr ⊢
        omega

theorem ropeEqualsSegment_spec (hok : HeapOk h) {rope : ℕ} (hr : rope < h.size) (hpos : 0 < h.length rope)
    (hlen : flat.units.length = h.length rope) : RopeAnswer (units h rope) flat.units (ropeEqualsSegment h rope flat) := by
  have hrope := length_units hok rope hr
  have hs := ropeEqualsLoop_spec hok flat (2 * h.length rope) rope [] 0 (List.forall_mem_singleton.2 ⟨hr, hpos⟩)
    (by simp only [rounds, map_cons, map_nil, sum_cons, sum_nil]; omega)
    (by simp only [flatMap_cons, flatMap_nil, append_nil]; omega)
  simpa only [ropeEqualsSegment, flatMap_cons, flatMap_nil, append_nil, drop_zero] using hs

/-! ## Equality -/

def Decides (x y : List UInt16) (outcome : Option Bool) : Prop := ∃ answer, outcome = some answer ∧ (answer = true ↔ x = y)

theorem Decides.yes (h : x = y) : Decides x y (some true) := ⟨true, rfl, fun _ => h, fun _ => rfl⟩

theorem Decides.no (h : x ≠ y) : Decides x y (some false) :=
  ⟨false, rfl, nofun, fun he => absurd he h⟩

theorem Compares.decides {result : Ordering} (hc : Compares equalityOnly x y result) :
    Decides x y (some (result == .eq)) := ⟨_, rfl, by rw [← hc.eq, beq_iff_eq]⟩

section

variable (hok : HeapOk h) (hl : left < h.size) (hr : right < h.size) (hlen : h.length left = h.length right)
include hok hl hr hlen

theorem equalsByParts_decides : Decides (units h left) (units h right) (equalsByParts h left right) := by
  rw [equalsByParts]
  rcases compareStructural_compares hok hl hr true with hgive | ⟨result, hres, hc⟩
  · rw [hgive]
    obtain ⟨result, hres, hc⟩ := comparePrefix_whole hok hl hr hlen true
    rw [hres]
    exact hc.decides
  · rw [hres]
    exact hc.decides

theorem equalsFlat_decides {rope : ℕ} (hrope : rope < h.size) (hpos : 0 < h.length rope)
    (hflat : flat.units.length = h.length rope) (hsides : units h rope = flat.units ↔ units h left = units h right) :
    Decides (units h left) (units h right) (equalsFlat h left right rope flat) := by
  rw [equalsFlat]
  rcases ropeEqualsSegment_spec hok hrope hpos hflat with hdeep | ⟨heq, hxy⟩ | ⟨hne, hxy⟩
  · rw [hdeep]
    exact equalsByParts_decides hok hl hr hlen
  · rw [heq]
    exact .yes (hsides.1 hxy)
  · rw [hne]
    exact .no (mt hsides.2 hxy)

theorem equalsSameLength_decides : Decides (units h left) (units h right) (equalsSameLength h left right) := by
  have hul := length_units hok left hl
  have hur := length_units hok right hr
  rw [equalsSameLength]
  split_ifs with hhash hzero
  · refine .no fun he => hhash.2.2 ?_
    rw [(hok.cell left hl).hash hhash.1, (hok.cell right hr).hash hhash.2.1, he]
  · refine .yes ?_
    rw [length_eq_zero_iff.1 (hul.trans hzero), length_eq_zero_iff.1 (hur.trans (hlen.symm.trans hzero))]
  cases ha : h.flat? left with
  | some a =>
    have hua := units_of_leaf (leaf_of_flat ha)
    cases hb : h.flat? right with
    | some b =>
      have hub := units_of_leaf (leaf_of_flat hb)
      refine ⟨_, rfl, ?_⟩
      rw [segmentsEqual_iff (by rw [← hua, hul]) (by rw [← hub]; omega), ← hub, slice_all (by omega), hua]
    | none => exact equalsFlat_decides hok hl hr hlen hr (by omega) (by rw [← hua]; omega) (by rw [← hua]; exact eq_comm)
  | none =>
    cases hb : h.flat? right with
    | some b =>
      have hub := units_of_leaf (leaf_of_flat hb)
      exact equalsFlat_decides hok hl hr hlen hl (by omega) (by rw [← hub]; omega) (by rw [hub])
    | none => exact equalsByParts_decides hok hl hr hlen

end

/-- interning keeps one property atom per content -/
def AtomsDistinct (h : StringHeap) : Prop :=
  ∀ a b, a < h.size → b < h.size → a ≠ b → (h.get a).propertyAtom = true → (h.get b).propertyAtom = true → units h a ≠ units h b

theorem stringEquals_decides (hok : HeapOk h) (hatoms : AtomsDistinct h) (hl : left < h.size)
    (hr : right < h.size) : Decides (units h left) (units h right) (stringEquals h left right) := by
  rw [stringEquals]
  by_cases hsame : left = right
  · rw [if_pos hsame, hsame]
    exact .yes rfl
  rw [if_neg hsame]
  by_cases hlen : h.length left = h.length right
  swap
  · rw [if_pos hlen]
    refine .no fun he => hlen ?_
    rw [← length_units hok left hl, ← length_units hok right hr, he]
  rw [if_neg (not_not.2 hlen)]
  split_ifs with hatom
  · rw [Bool.and_eq_true] at hatom
    exact .no (hatoms left right hl hr hsame hatom.1 hatom.2)
  · exact equalsSameLength_decides hok hl hr hlen

/-! ## Order -/

theorem compare_of_take (h : x.take (min x.length y.length) = y.take (min x.length y.length)) :
    compare x y = if x.length < y.length then .lt else if x.length > y.length then .gt else .eq := by
  induction x generalizing y with
  | nil => cases y <;> simp
  | cons a x ih =>
    cases y with
    | nil => simp
    | cons b y =>
      simp only [length_cons, Nat.add_min_add_right, take_succ_cons, List.cons.injEq] at h
      rw [List.compare_cons_cons, h.1, ih h.2, (Std.ReflCmp.compare_self : compare b b = .eq), length_cons, length_cons]
      simp only [Nat.add_lt_add_iff_right]
      rfl

theorem compare_of_take_ne (hx : n ≤ x.length) (hy : n ≤ y.length)
    (hne : compare (x.take n) (y.take n) ≠ .eq) : compare x y = compare (x.take n) (y.take n) := by
  have hc := (Compares.of_compare false (x.take n) (y.take n)).front hne
    (by rw [length_take, length_take]; omega) (x.drop n) (y.drop n)
  rw [take_append_drop, take_append_drop] at hc
  exact (hc.order rfl).symm

theorem stringCompare_eq (hok : HeapOk h) (hl : left < h.size) (hr : right < h.size) :
    stringCompare h left right = some (compare (units h left) (units h right)) := by
  have hul := length_units hok left hl
  have hur := length_units hok right hr
  rw [stringCompare]
  by_cases hsame : left = right
  · rw [if_pos hsame, hsame, compare_self_eq]
  rw [if_neg hsame]
  rcases compareStructural_compares hok hl hr false with hgive | ⟨result, hres, hc⟩
  swap
  · rw [hres, ← hc.order rfl]
  rw [hgive]
  obtain ⟨result, hres, hc⟩ := comparePrefix_compares hok hl hr (Nat.min_le_left _ _) (Nat.min_le_right _ _) false
  have horder := hc.order rfl
  rw [slice, slice, drop_zero, drop_zero] at horder hc
  rw [hres]
  by_cases heq : result = .eq
  · subst heq
    have htake := hc.eq.1 rfl
    rw [← hul, ← hur] at htake ⊢
    rw [compare_of_take htake]
    split_ifs <;> rfl
  rw [compare_of_take_ne (by omega) (by omega) (horder ▸ heq), ← horder]
  cases result with
  | eq => exact absurd rfl heq
  | lt => rfl
  | gt => rfl

end Strings

/-- **Hash, equality and ordering depend only on content.** -/
theorem content_decides (h : StringHeap) (hok : HeapOk h) (a b : ℕ) (ha : IsValue h a) (hb : IsValue h b) :
    (hashSlow h a).2 = hashCodeUnits (units h a) ∧
    (∀ r, 0 < h.length a → 0 < h.length b → newConsChecked h a b = .ok r → (r.1.get r.2).hashValid = true →
      (r.1.get r.2).hash = hashCodeUnits (units h a ++ units h b)) ∧
    (AtomsDistinct h → ∃ answer, stringEquals h a b = some answer ∧ (answer = true ↔ units h a = units h b)) ∧
    stringCompare h a b = some (compare (units h a) (units h b)) := by
  refine ⟨(hashSlow_spec hok ha).1, ?_, fun hatoms => stringEquals_decides hok hatoms ha.1 hb.1, stringCompare_eq hok ha.1 hb.1⟩
  intro r hapos hbpos hcons hvalid
  have hspec := newConsChecked_spec hok ha hb hapos hbpos
  split_ifs at hspec
  · obtain ⟨r', hres, hc⟩ := hspec
    rw [hcons] at hres
    cases hres
    rw [(hc.ok.cell r.2 hc.value.1).hash hvalid, hc.units]
  · rw [hcons] at hspec
    cases hspec

def mixedHeap : StringHeap :=
  (newFlat (newConsNode (newFlat (newFlat emptyHeap .inline (.latin1 [0x61, 0x62, 0x63])).1 .inline (.utf16 [0x3b1, 0x64])).1
    0 1).1 .inline (.utf16 [0x61, 0x62, 0x63, 0x3b1, 0x64])).1

theorem mixedHeap_ok : HeapOk mixedHeap := by
  have h1 := newFlat_makes emptyHeap_ok .inline (.latin1 [0x61, 0x62, 0x63]) (by decide)
  have h2 := newFlat_makes h1.ok .inline (.utf16 [0x3b1, 0x64]) (by decide)
  have h3 := newConsNode_makes h2.ok (⟨by decide, by decide⟩ : IsValue _ 0) h2.value (by decide) (by decide) (by decide)
    (childOk_of_leaf (by decide)) (childOk_of_leaf (by decide))
  exact (newFlat_makes h3.1.ok .inline (.utf16 [0x61, 0x62, 0x63, 0x3b1, 0x64]) (by decide)).ok

theorem content_decides_mixed : stringEquals mixedHeap 2 3 = some true ∧ stringCompare mixedHeap 2 3 = some .eq ∧
    (hashSlow mixedHeap 2).2 = (hashSlow mixedHeap 3).2 := by
  have hunits : units mixedHeap 2 = units mixedHeap 3 := by decide
  have hno : ∀ a, a < 4 → (mixedHeap.get a).propertyAtom = false := by decide
  have hatoms : AtomsDistinct mixedHeap := fun a _ ha _ _ hatom => by
    rw [hno a ha] at hatom
    cases hatom
  have h2 : IsValue mixedHeap 2 := ⟨by decide, by decide⟩
  have h3 : IsValue mixedHeap 3 := ⟨by decide, by decide⟩
  obtain ⟨hhash, -, hequals, hcompare⟩ := content_decides mixedHeap mixedHeap_ok 2 3 h2 h3
  obtain ⟨answer, hanswer, hiff⟩ := hequals hatoms
  refine ⟨?_, ?_, ?_⟩
  · rw [hanswer, hiff.2 hunits]
  · rw [hcompare, hunits, compare_self_eq]
  · rw [hhash, hunits, (content_decides mixedHeap mixedHeap_ok 3 2 h3 h2).1]

end Maligator.HeapString
