/-
Model of dense arrays (`array_object.c`) and of the cards that their element stores leave for minor collections
(`gc.h`, `gc.c`, `array_object.h`).

One array is followed, together with the remembered set and the OLD bits of all cells: `CardState`. The elements are a
function on indices, or nothing while the vector pointer is null; `fresh` is what a grown vector happens to hold above
what was copied. A function of the source that returns false without a change returns `none`. SATB barriers, the hole
summary, finalizer bits and counters play no part in the cards and are left out, and allocation succeeds.

`gcMinor` is what a minor collection does to this array: it traces it if it is remembered, promotes the cells it meets and
whatever else the collection marks, and empties the remembered set.
-/
import Maligator.Capacity
import Maligator.Value

namespace Maligator.Array

/-! ## State -/

inductive MalRememberedState where
  | clean
  | full
  | arrayRange
  deriving DecidableEq, Repr

structure MalArrayObject where
  elements : Option (ℕ → MalValue)
  length : ℕ
  capacity : ℕ
  denseCount : ℕ
  lengthWritable : Bool
  denseDeopted : Bool
  denseElementsConfigurable : Bool
  extensible : Bool
  inlineCapacity : ℕ
  minorScanStart : ℕ
  dirty : MalRememberedState

/-- the array, the remembered set, and the OLD bit of every cell -/
structure CardState where
  array : MalArrayObject
  remembered : List ℕ
  old : ℕ → Bool

def arrayMinorScanMax : ℕ := 2 ^ 23 - 1

def arrayDenseMaxGap : ℕ := 1024

namespace MalArrayObject

/-- `array->elements[index]` -/
def element (array : MalArrayObject) (index : ℕ) : MalValue := (array.elements.getD fun _ => 0) index

def mapElements (f : (ℕ → MalValue) → ℕ → MalValue) (array : MalArrayObject) : MalArrayObject :=
  { array with elements := array.elements.map f }

end MalArrayObject

/-- `array->elements[index] = value` -/
def CardState.write (st : CardState) (index : ℕ) (value : MalValue) : CardState :=
  { st with array := st.array.mapElements fun elements => Function.update elements index value }

def memmove (elements : ℕ → MalValue) (target start count : ℕ) : ℕ → MalValue :=
  fun i => if target ≤ i ∧ i < target + count then elements (i - target + start) else elements i

/-- memcpy of `values` into a vector -/
def memcpy (elements : ℕ → MalValue) (target : ℕ) (values : List MalValue) : ℕ → MalValue :=
  fun i => if target ≤ i ∧ i < target + values.length then values.getD (i - target) 0 else elements i

/-! ## Cards -/

section Cards

variable (owner : ℕ)

def gcRemember (st : CardState) : CardState :=
  let array := { st.array with minorScanStart := 0, dirty := .full }
  if st.array.dirty ≠ .clean then { st with array := array }
  else { st with array := array, remembered := st.remembered ++ [owner] }

def gcArrayCardSlow (st : CardState) (index : ℕ) (value : MalValue) : CardState :=
  if !st.old owner || decide (st.array.dirty = .full) || !valueIsHeap value || st.old (valueToHeap value) then st
  else
    let start := if index < st.array.minorScanStart then index else st.array.minorScanStart
    -- a partial card: the array is remembered, from `start` on only
    let st := if st.array.dirty = .clean then
        let st := gcRemember owner st
        { st with array := { st.array with dirty := .arrayRange } }
      else st
    { st with array := { st.array with minorScanStart := start } }

def arrayObjectCard (st : CardState) (index : ℕ) (value : MalValue) : CardState :=
  if !valueIsHeap value || !st.old owner then st
  else if st.array.dirty = .full ∨ (st.array.dirty = .arrayRange ∧ index ≥ st.array.minorScanStart) then st
  else gcArrayCardSlow owner st index value

def gcCard (st : CardState) (value : MalValue) : CardState :=
  if !st.old owner || decide (st.array.dirty = .full) then st
  else if valueIsHeap value && !st.old (valueToHeap value) then gcRemember owner st
  else st

/-- cards for the elements from `start` on -/
def arrayObjectDenseCardRange (st : CardState) (start stop : ℕ) : CardState :=
  (List.range' start (stop - start)).foldl (fun st index => gcCard owner st (st.array.element index)) st

/-- values are stored one after the other, each with its card -/
def publishValues (card : CardState → ℕ → MalValue → CardState) : CardState → ℕ → List MalValue → CardState
  | st, _, [] => st
  | st, index, value :: values => publishValues card (card (st.write index value) index value) (index + 1) values

/-! ## Growing -/

def growTo : ℕ → ℕ → ℕ → ℕ
  | 0, capacity, _ => capacity
  | fuel + 1, capacity, needed => if capacity < needed then growTo fuel (capacity * 2) needed else capacity

variable (fresh : ℕ → MalValue)

section

variable (st : CardState)

def arrayObjectDenseReserveExact (array : MalArrayObject) (needed : ℕ) : MalArrayObject :=
  if needed ≤ array.capacity then array
  else if array.elements.isNone && decide (needed ≤ array.inlineCapacity) then
    { array with elements := some fresh, capacity := array.inlineCapacity }
  else { array with elements := some (copyRows array.capacity array.element fresh), capacity := needed }

def arrayObjectDenseReserve (array : MalArrayObject) (needed : ℕ) : MalArrayObject :=
  if needed ≤ array.capacity then array
  else arrayObjectDenseReserveExact fresh array (growTo needed (if array.capacity = 0 then 4 else array.capacity) needed)

def CardState.reserve (needed : ℕ) : CardState :=
  { st with array := arrayObjectDenseReserve fresh st.array needed }

/-! ## Stores and appends -/

def arrayObjectDenseStoreGeneral (index : ℕ) (value : MalValue) : Option CardState :=
  if st.array.elements.isSome && decide (index < st.array.denseCount) then
    some (arrayObjectCard owner (st.write index value) index value)
  else if index ≥ st.array.denseCount + arrayDenseMaxGap then none
  else
    let st := st.reserve fresh (index + 1)
    let holes := st.array.mapElements fun elements i =>
      if st.array.denseCount ≤ i ∧ i < index then valueArrayHole else elements i
    let st := { st with array := holes }.write index value
    some (arrayObjectCard owner { st with array := { st.array with denseCount := index + 1 } } index value)

def arrayObjectDenseStore (index : ℕ) (value : MalValue) : Option CardState :=
  if st.array.elements.isSome && decide (index < st.array.denseCount) then
    some (arrayObjectCard owner (st.write index value) index value)
  else if decide (index = st.array.denseCount) && decide (index < st.array.capacity) && st.array.elements.isSome then
    let st := st.write index value
    some (arrayObjectCard owner { st with array := { st.array with denseCount := index + 1 } } index value)
  else arrayObjectDenseStoreGeneral owner fresh st index value

def appendOne (value : MalValue) : CardState :=
  let index := st.array.denseCount
  let st := st.write index value
  arrayObjectCard owner { st with array := { st.array with denseCount := index + 1, length := index + 1 } } index value

def arrayObjectFreshDenseAppend (value : MalValue) : Option CardState :=
  if st.array.denseDeopted || !st.array.extensible || !st.array.lengthWritable ||
      decide (st.array.length ≠ st.array.denseCount) then none
  else some (appendOne owner (st.reserve fresh (st.array.denseCount + 1)) value)

section

variable (start : ℕ) (values : List MalValue)

def arrayObjectFreshDenseAppendReserved (value : MalValue) : CardState := appendOne owner st value

/-- the tail of the appends of several values: each is carded by its index before the region grows over it -/
def appendAll : CardState :=
  let start := st.array.length
  let stop := start + values.length
  let st := publishValues (arrayObjectCard owner) (st.reserve fresh stop) start values
  { st with array := { st.array with denseCount := stop, length := stop } }

def arrayObjectDenseAppendMany : Option CardState :=
  let start := st.array.length
  if st.array.denseDeopted || !st.array.extensible || !st.array.lengthWritable ||
      decide (st.array.denseCount ≠ start) || (decide (start ≠ 0) && st.array.elements.isNone) ||
      decide (values.length > uint32Max - start) then none
  else if values.length = 0 then some st
  else some (appendAll owner fresh st values)

def arrayObjectContainedDensePush : Option CardState :=
  if values.length > uint32Max - st.array.length then none
  else if values.length = 0 then some st
  else some (appendAll owner fresh st values)

def arrayObjectContainedDensePop : Option (CardState × MalValue) :=
  if st.array.length = 0 then none
  else
    let index := st.array.length - 1
    some ({ st with array := { st.array with denseCount := index, length := index } }, st.array.element index)

/-! ## Builders -/

def arrayObjectDenseBuildPrepare (count : ℕ) : Option CardState :=
  if st.array.denseDeopted || !st.array.extensible || decide (st.array.denseCount ≠ start) ||
      decide (count > uint32Max - start) then none
  else if start + count > st.array.length && !st.array.lengthWritable then none
  else if st.array.length ≠ start ∧ st.array.length < start + count then none
  else some (st.reserve fresh (start + count))

def buildFinish (stop : ℕ) : CardState :=
  { st with array := { st.array with
      denseCount := stop, length := if st.array.length < stop then stop else st.array.length } }

def arrayObjectDenseBuildValues : Option CardState :=
  (arrayObjectDenseBuildPrepare fresh st start values.length).map fun st =>
    buildFinish (publishValues (fun st _ value => gcCard owner st value) st start values) (start + values.length)

def arrayObjectDenseBuildFill (count : ℕ) (value : MalValue) : Option CardState :=
  (arrayObjectDenseBuildPrepare fresh st start count).map fun st =>
    let st := { st with array := st.array.mapElements fun elements i =>
      if start ≤ i ∧ i < start + count then value else elements i }
    buildFinish (if count > 0 then gcCard owner st value else st) (start + count)

def rangeValues (source : MalArrayObject) (sourceStart count : ℕ) (reverse holesAsUndefined : Bool) : List MalValue :=
  (List.range count).map fun index =>
    let sourceIndex := if reverse then sourceStart + count - 1 - index else sourceStart + index
    let value := if sourceIndex < source.denseCount then source.element sourceIndex else valueArrayHole
    if holesAsUndefined && value == valueArrayHole then valueUndefined else value

def arrayObjectDenseBuildRange (source : MalArrayObject) (sourceStart count : ℕ) (reverse holesAsUndefined : Bool)
    : Option CardState :=
  if sourceStart > source.length ∨ count > source.length - sourceStart then none
  else
    (arrayObjectDenseBuildPrepare fresh st start count).map fun st =>
      buildFinish (publishValues (fun st _ value => gcCard owner st value) st start
        (rangeValues source sourceStart count reverse holesAsUndefined)) (start + count)

/-! ## Moves -/

def arrayObjectDenseShift : CardState :=
  let count := st.array.denseCount
  let st := if count > 0 then
      let moved := st.array.mapElements fun elements => if count > 1 then memmove elements 0 1 (count - 1) else elements
      arrayObjectDenseCardRange owner { st with array := { moved with denseCount := count - 1 } } 0 (count - 1)
    else st
  { st with array := { st.array with length := st.array.length - 1 } }

def arrayObjectDenseUnshiftMany : Option CardState :=
  let count := values.length
  if count = 0 then some st
  else if count > uint32Max - st.array.length ∨ count > uint32Max - st.array.denseCount then none
  else
    let oldCount := st.array.denseCount
    let st := st.reserve fresh (oldCount + count)
    let moved := st.array.mapElements fun elements => memcpy (memmove elements count 0 oldCount) 0 values
    some (arrayObjectDenseCardRange owner
      { st with array := { moved with denseCount := oldCount + count, length := st.array.length + count } }
      0 (oldCount + count))

def swapElements (elements : ℕ → MalValue) (left right : ℕ) : ℕ → MalValue :=
  Function.update (Function.update elements left (elements right)) right (elements left)

/-- the elements change places, and no card is left -/
def arrayObjectDenseReverse : CardState :=
  let count := st.array.denseCount
  { st with array := st.array.mapElements fun elements =>
      (List.range (count / 2)).foldl (fun elements left => swapElements elements left (count - 1 - left)) elements }

def arrayObjectDenseFill (stop : ℕ) (value : MalValue) : CardState :=
  let st := { st with array := st.array.mapElements fun elements i => if start ≤ i ∧ i < stop then value else elements i }
  if start < stop then gcCard owner st value else st

end

def arrayObjectDenseCopyWithin (target start count : ℕ) : CardState :=
  if count = 0 ∨ target = start then st
  else
    arrayObjectDenseCardRange owner
      { st with array := st.array.mapElements fun elements => memmove elements target start count } target (target + count)

def arrayObjectDenseSplice (start deleteCount : ℕ) (values : List MalValue) : Option CardState :=
  let oldLength := st.array.length
  let insertCount := values.length
  if deleteCount > oldLength - start ∨ insertCount > uint32Max - (oldLength - deleteCount) then none
  else
    let newLength := oldLength - deleteCount + insertCount
    let st := st.reserve fresh newLength
    let tailStart := start + deleteCount
    let tailCount := oldLength - tailStart
    let moved := st.array.mapElements fun elements =>
      let elements := if tailCount > 0 ∧ insertCount ≠ deleteCount then
          memmove elements (start + insertCount) tailStart tailCount
        else elements
      memcpy elements start values
    some (arrayObjectDenseCardRange owner
      { st with array := { moved with denseCount := newLength, length := newLength } } 0 newLength)

/-! ## Shrinking -/

def arrayObjectDenseDelete (index : ℕ) : CardState :=
  if st.array.elements.isNone || decide (index ≥ st.array.denseCount) then st else st.write index valueArrayHole

/-- `tableLength` is what the deletions in the property table of a deoptimised array achieve -/
def arrayObjectShrink (tableLength : ℕ) (array : MalArrayObject) (newLength : ℕ) : ℕ :=
  if array.elements.isSome && !array.denseElementsConfigurable && decide (newLength < array.denseCount) then
    array.denseCount
  else if !array.denseDeopted then newLength
  else tableLength

def arrayObjectSetLength (tableLength : ℕ) (st : CardState) (length : ℕ) : CardState :=
  if length < st.array.length then
    let achieved := arrayObjectShrink tableLength st.array length
    let denseCount := if st.array.elements.isSome && decide (st.array.denseCount > achieved) then achieved
      else st.array.denseCount
    { st with array := { st.array with denseCount := denseCount, length := achieved } }
  else { st with array := { st.array with length := length } }

/-! ## Minor collections -/

def scanStart (array : MalArrayObject) : ℕ := if array.minorScanStart ≤ array.denseCount then array.minorScanStart else 0

def traceVisits (array : MalArrayObject) (cell : ℕ) : Bool :=
  array.elements.isSome && (List.range' (scanStart array) (array.denseCount - scanStart array)).any fun index =>
    valueIsHeap (array.element index) && valueToHeap (array.element index) == cell

def traceArray (array : MalArrayObject) : MalArrayObject :=
  if array.elements.isSome then
    { array with minorScanStart := if array.denseCount ≤ arrayMinorScanMax then array.denseCount else 0 }
  else array

/-- a minor collection; `marked` is what it reaches by other ways than this array. Immortal cells are never marked. -/
def gcMinor (immortal : ℕ → Bool) (st : CardState) (marked : ℕ → Bool) : CardState :=
  if owner ∈ st.remembered then
    { array := { traceArray st.array with dirty := .clean }
      remembered := []
      old := fun cell => st.old cell || (!immortal cell && (marked cell || traceVisits st.array cell)) }
  else { st with remembered := [], old := fun cell => st.old cell || (!immortal cell && marked cell) }

/-- a cell is handed out young -/
def gcAllocate (cell : ℕ) : CardState := { st with old := Function.update st.old cell false }

end

end Cards

end Maligator.Array
