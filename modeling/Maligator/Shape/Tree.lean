/-
The transition tree of object layouts (`shape.c`).

A shape is an immutable list of properties. Adding a property follows or creates an edge of the tree; so does sealing or
freezing. The edges of a shape are a list, and from the eighth comparison on also an open-addressing index over the
property edges; a wide shape builds an index over its own keys at its first lookup. Removing a property replays the others
from the root, within a budget.

Shapes are named by numbers in the order of their allocation. The statistics are left out.
-/
import Maligator.Lib.LinearProbe
import Maligator.Value

namespace Maligator.Shape

open Function

/-! ## Shapes -/

structure ShapeProp where
  key : MalValue
  slot : ℕ
  attrs : BitVec 8
  deriving DecidableEq

inductive TransitionKind where
  | add
  | seal
  | freeze
  deriving DecidableEq

structure Transition where
  key : MalValue
  child : ℕ
  attrs : BitVec 8
  kind : TransitionKind
  deriving DecidableEq

structure IndexSlot where
  hash : BitVec 64
  transition : Transition

structure TransitionIndex where
  capacity : ℕ
  size : ℕ
  complete : Bool
  slots : ℕ → Option IndexSlot

/-- `mask` is the capacity less one; an entry is a hash above a prop index plus one -/
structure FindIndex where
  capacity : ℕ
  entries : ℕ → BitVec 64

/-- `inline_count` is the length of the props -/
structure MalShape where
  props : List ShapeProp
  transitionIndex : Option TransitionIndex
  transitions : List Transition
  treeRoot : Option ℕ
  findIndex : Option FindIndex

structure ShapeHeap where
  shapes : ℕ → MalShape
  count : ℕ
  shapeRoot : ℕ
  removalBudget : ℕ

def transitionIndexThreshold : ℕ := 8
def findIndexThreshold : ℕ := 4
def ordinarySlots : ℕ := 64
def maxInlineSlots : ℕ := 255
def initialRemovalBudget : ℕ := 4096

def propertyWritable : BitVec 8 := 1#8
def propertyConfigurable : BitVec 8 := 4#8

def emptyShape (treeRoot : Option ℕ) : MalShape := ⟨[], none, [], treeRoot, none⟩

def shapeHeapInit : ShapeHeap := ⟨fun _ => emptyShape (some 0), 1, 0, initialRemovalBudget⟩

/-! ## The transition index -/

def transitionHash (env : KeyEnv) (key : MalValue) (attrs : BitVec 8) : BitVec 64 :=
  let hash := if valueIsString key then env.stringHash (env.stringUnits key) else key
  hash ^^^ (attrs.setWidth 64 + 0x9e3779b97f4a7c15#64 + (hash <<< 6) + (hash >>> 2))

def transitionIndexNew (capacity : ℕ) : TransitionIndex := ⟨capacity, 0, true, fun _ => none⟩

/-- the capacity is a power of two, so `& mask` is the remainder -/
def transitionIndexInsert (index : TransitionIndex) (hash : BitVec 64) (transition : Transition) : TransitionIndex :=
  let slot := LinearProbe.vacancy Option.isNone index.slots index.capacity index.capacity (hash.toNat % index.capacity)
  { index with slots := update index.slots slot (some ⟨hash, transition⟩), size := index.size + 1 }

def transitionIndexGrow (old : TransitionIndex) : TransitionIndex :=
  (List.range old.capacity).foldl
    (fun index i =>
      match old.slots i with
      | some slot => transitionIndexInsert index slot.hash slot.transition
      | none => index)
    { transitionIndexNew (old.capacity * 2) with complete := old.complete }

def transitionIndexAdd (env : KeyEnv) (index : TransitionIndex) (transition : Transition) : TransitionIndex :=
  transitionIndexInsert (if (index.size + 1) * 2 > index.capacity then transitionIndexGrow index else index)
    (transitionHash env transition.key transition.attrs) transition

def transitionIndexBuild (env : KeyEnv) (transitions : List Transition) : TransitionIndex :=
  transitions.foldl (fun index transition => if transition.kind ≠ .add then index else transitionIndexAdd env index transition)
    (transitionIndexNew (transitionIndexThreshold * 2))

def slotMatches (env : KeyEnv) (key : MalValue) (attrs : BitVec 8) (hash : BitVec 64) : Option IndexSlot → Bool
  | some candidate => candidate.hash == hash && candidate.transition.attrs == attrs && keyValueEquals env candidate.transition.key key
  | none => false

section

variable (env : KeyEnv) (heap : ShapeHeap) (shape : ℕ)

def transitionIndexFind (index : TransitionIndex) (key : MalValue) (attrs : BitVec 8) (hash : BitVec 64) :
    Option Transition :=
  (LinearProbe.search Option.isNone (slotMatches env key attrs hash) index.slots index.capacity index.capacity
    (hash.toNat % index.capacity)).join.map IndexSlot.transition

/-! ## Edges -/

def transitionMatches (key : MalValue) (attrs : BitVec 8) (transition : Transition) : Bool :=
  transition.kind == .add && transition.attrs == attrs && keyValueEquals env transition.key key

def findAddTransition (key : MalValue) (attrs : BitVec 8) : Option ℕ :=
  let s := heap.shapes shape
  let listed := (s.transitions.find? (transitionMatches env key attrs)).map Transition.child
  match s.transitionIndex with
  | some index =>
    match transitionIndexFind env index key attrs (transitionHash env key attrs) with
    | some found => some found.child
    | none => if index.complete then none else listed
  | none => listed

def searchTransitions (env : KeyEnv) (key : MalValue) (attrs : BitVec 8) : List Transition → ℕ → Option Transition × ℕ
  | [], comparisons => (none, comparisons)
  | transition :: rest, comparisons =>
    if transition.kind ≠ .add then searchTransitions env key attrs rest comparisons
    else if transition.attrs = attrs ∧ keyValueEquals env transition.key key = true then (some transition, comparisons + 1)
    else searchTransitions env key attrs rest (comparisons + 1)

def searchAddition (s : MalShape) (key : MalValue) (attrs : BitVec 8) : Option Transition × ℕ :=
  match s.transitionIndex with
  | some index =>
    match transitionIndexFind env index key attrs (transitionHash env key attrs) with
    | some found => (some found, 0)
    | none => if index.complete then (none, 0) else searchTransitions env key attrs s.transitions 0
  | none => searchTransitions env key attrs s.transitions 0

/-- a new shape under an edge of `shape`; the index is that of the shape afterwards -/
def allocateChild (props : List ShapeProp) (transition : Transition) (index : Option TransitionIndex) : ShapeHeap :=
  let s := heap.shapes shape
  let child : MalShape := ⟨props, none, [], s.treeRoot, none⟩
  { heap with
    shapes := update (update heap.shapes heap.count child) shape
      { s with transitions := transition :: s.transitions, transitionIndex := index }
    count := heap.count + 1 }

/-- `none` where the code aborts: a shape holds no more properties -/
def addProperty (key : MalValue) (attrs : BitVec 8) : Option (ℕ × ShapeHeap) :=
  let s := heap.shapes shape
  if s.props.length ≥ maxInlineSlots then none
  else
    match searchAddition env s key attrs with
    | (some found, _) => some (found.child, heap)
    | (none, comparisons) =>
      let transition : Transition := ⟨key, heap.count, attrs, .add⟩
      let index := match s.transitionIndex with
        | some index => some (transitionIndexAdd env index transition)
        | none =>
          if comparisons + 1 ≥ transitionIndexThreshold then some (transitionIndexBuild env (transition :: s.transitions)) else none
      some (heap.count, allocateChild heap shape (s.props ++ [⟨key, s.props.length, attrs⟩]) transition index)

/-- the attributes a sealed or frozen property loses; private elements keep theirs -/
def clearAttrs (clear : BitVec 8) (prop : ShapeProp) : ShapeProp :=
  if valueIsString prop.key then { prop with attrs := prop.attrs &&& ~~~clear } else prop

def setIntegrity (clearWritable : Bool) : ℕ × ShapeHeap :=
  let s := heap.shapes shape
  let clear := if clearWritable then propertyConfigurable ||| propertyWritable else propertyConfigurable
  if !s.props.any fun prop => valueIsString prop.key && prop.attrs &&& clear != 0 then (shape, heap)
  else
    let kind := if clearWritable then TransitionKind.freeze else .seal
    match s.transitions.find? fun transition => transition.kind == kind with
    | some found => (found.child, heap)
    | none => (heap.count, allocateChild heap shape (s.props.map (clearAttrs clear)) ⟨0, heap.count, 0, kind⟩ s.transitionIndex)

/-! ## Removal -/

/-- the replay of the kept properties from a shape; a `some none` result is nullptr -/
def removeLoop (env : KeyEnv) (index : ℕ) : ℕ → List ShapeProp → ShapeHeap → ℕ → Option (Option ℕ × ShapeHeap)
  | _, [], heap, next => some (some next, heap)
  | i, prop :: rest, heap, next =>
    if i = index then removeLoop env index (i + 1) rest heap next
    else
      match findAddTransition env heap next prop.key prop.attrs with
      | some child => removeLoop env index (i + 1) rest heap child
      | none =>
        if heap.removalBudget = 0 then some (none, heap)
        else
          match addProperty env { heap with removalBudget := heap.removalBudget - 1 } next prop.key prop.attrs with
          | some (child, heap') => removeLoop env index (i + 1) rest heap' child
          | none => none

def removeProperty (index : ℕ) : Option (Option ℕ × ShapeHeap) :=
  let s := heap.shapes shape
  match s.treeRoot with
  | none => some (none, heap)
  | some root => if s.props.length > ordinarySlots then some (none, heap) else removeLoop env index 0 s.props heap root

/-! ## Lookup -/

def findKeyHash (key : MalValue) : BitVec 32 :=
  let hash := if valueIsString key then env.stringHash (env.stringUnits key) else key * 0x9E3779B97F4A7C15#64
  (hash ^^^ (hash >>> 32)).setWidth 32

def packEntry (hash : BitVec 32) (i : ℕ) : BitVec 64 := (hash.setWidth 64 <<< 32) ||| BitVec.ofNat 64 (i + 1)

def entryHash (entry : BitVec 64) : BitVec 32 := (entry >>> 32).setWidth 32

def entryIndex (entry : BitVec 64) : ℕ := (entry.setWidth 32).toNat - 1

def entryVacant (entry : BitVec 64) : Bool := entry == 0

/-- `while (capacity < count * 2) capacity *= 2` -/
def findIndexCapacity (count : ℕ) : ℕ → ℕ → ℕ
  | 0, capacity => capacity
  | fuel + 1, capacity => if capacity < count * 2 then findIndexCapacity count fuel (capacity * 2) else capacity

def findIndexInsert (index : FindIndex) (hash : BitVec 32) (i : ℕ) : FindIndex :=
  let slot := LinearProbe.vacancy entryVacant index.entries index.capacity index.capacity (hash.toNat % index.capacity)
  { index with entries := update index.entries slot (packEntry hash i) }

def findIndexBuild (props : List ShapeProp) : FindIndex :=
  props.zipIdx.foldl (fun index entry => findIndexInsert index (findKeyHash env entry.1.key) entry.2)
    ⟨findIndexCapacity props.length props.length 16, fun _ => 0⟩

def entryMatches (props : List ShapeProp) (key : MalValue) (hash : BitVec 32) (entry : BitVec 64) : Bool :=
  entryHash entry == hash && (props[entryIndex entry]?).any fun prop => keyValueEquals env prop.key key

def findIndexLookup (index : FindIndex) (props : List ShapeProp) (key : MalValue) : Option ℕ :=
  let hash := findKeyHash env key
  (LinearProbe.search entryVacant (entryMatches env props key hash) index.entries index.capacity index.capacity
    (hash.toNat % index.capacity)).map entryIndex

def shapeFindWide (key : MalValue) : Option ℕ × ShapeHeap :=
  let s := heap.shapes shape
  if s.props.length ≥ findIndexThreshold then
    match s.findIndex with
    | some index => (findIndexLookup env index s.props key, heap)
    | none =>
      let index := findIndexBuild env s.props
      (findIndexLookup env index s.props key,
        { heap with shapes := update heap.shapes shape { s with findIndex := some index } })
  else (s.props.findIdx? fun prop => keyValueEquals env prop.key key, heap)

/-- `mal_shape_find`: the index of a key, `none` for −1 -/
def shapeFind (key : MalValue) : Option ℕ × ShapeHeap :=
  let s := heap.shapes shape
  if s.props.length > 1 then shapeFindWide env heap shape key
  else
    match s.props with
    | [] => (none, heap)
    | prop :: _ => (if keyValueEquals env prop.key key then some 0 else none, heap)

end

end Maligator.Shape
