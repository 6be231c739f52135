/-
Model of the storage of WeakMap and WeakSet (`weak_collection.c`).

A storage holds up to four rows inline, packed at the front, or any number of rows in the buckets of a grouped hash index.
A row is a key and what the width leaves room for beside it: a value for a WeakMap, nothing for a WeakSet. `V` is that rest
and `undefined` what a new row is filled with. `fresh` is what a new allocation happens to hold, `none` is an abort.

The write barriers, cards and counters of the source do not change the storage and are not part of this model.
-/
import Maligator.Lib.Rows
import Maligator.Capacity
import Maligator.Value

namespace Maligator.Weak

open HashIndex Function Rows

def weakInlineCapacity : ℕ := 4

/-- `buckets` stands for the buckets, their controls and the capacity, which are allocated together -/
structure MalWeakStorage (V : Type) where
  buckets : Option (MalHashIndex (MalValue × V))
  size : ℕ
  deleted : ℕ
  reserveSize : ℕ
  small : ℕ → MalValue × V

variable {V : Type}

/-- `registered` is the flag of a symbol's heap cell -/
def weakKeyCanBeHeld (registered : MalValue → Bool) (key : MalValue) : Bool :=
  valueIsObject key || (valueIsSymbol key && !registered key)

def rowHash (row : MalValue × V) : BitVec 64 := keyHashMix row.1

def weakRow (storage : MalWeakStorage V) (index : ℕ) : MalValue × V :=
  match storage.buckets with
  | none => storage.small index
  | some buckets => buckets.slots index

def weakLive (storage : MalWeakStorage V) (index : ℕ) : Bool :=
  match storage.buckets with
  | none => decide (index < storage.size)
  | some buckets => decide (buckets.controls index < hashEmpty)

def weakStorageScanSlots (storage : MalWeakStorage V) : ℕ :=
  match storage.buckets with
  | none => storage.size
  | some buckets => buckets.capacity

def weakCapacity (members : ℕ) : Option ℕ := collectionSlotCapacity members

def weakStorageNew (fresh : ℕ → MalValue × V) : MalWeakStorage V where
  buckets := none
  size := 0
  deleted := 0
  reserveSize := 0
  small := fresh

/-- the bucket of the key, or the one an insertion takes -/
def weakFind (storage : MalWeakStorage V) (key : MalValue) (hash : BitVec 64) : Option ℕ :=
  match storage.buckets with
  | none => some (((List.range storage.size).find? fun i => (storage.small i).1 == key).getD storage.size)
  | some buckets =>
    (hashSearch buckets.controls buckets.capacity hash (fun slot => (buckets.slots slot).1 == key) true).join

def weakRowAt (storage : MalWeakStorage V) (index : ℕ) : Option (MalValue × V) :=
  if weakLive storage index then some (weakRow storage index) else none

def weakRows (storage : MalWeakStorage V) : List (MalValue × V) :=
  entries (weakRowAt storage) (weakStorageScanSlots storage)

def weakRebuild (fresh : ℕ → MalValue × V) (storage : MalWeakStorage V) (capacity : ℕ) : Option (MalWeakStorage V) :=
  (hashIndexFill rowHash (hashIndexReset fresh capacity) (weakRows storage)).map fun buckets =>
    { storage with buckets := some buckets, deleted := 0, reserveSize := 0 }

/-- the demotion loop: live rows are copied to the front of `small` until there are `size` of them -/
def weakDemoteLoop (storage : MalWeakStorage V) : ℕ → ℕ → ℕ → (ℕ → MalValue × V) → ℕ → MalValue × V
  | 0, _, _, small => small
  | fuel + 1, scanned, next, small =>
    if next < storage.size then
      if weakLive storage scanned then
        weakDemoteLoop storage fuel (scanned + 1) (next + 1) (update small next (weakRow storage scanned))
      else weakDemoteLoop storage fuel (scanned + 1) next small
    else small

def weakDemote (storage : MalWeakStorage V) : MalWeakStorage V where
  buckets := none
  size := storage.size
  deleted := 0
  reserveSize := 0
  small := weakDemoteLoop storage (weakStorageScanSlots storage) 0 0 storage.small

def weakMaintain (fresh : ℕ → MalValue × V) (storage : MalWeakStorage V) (afterFilter : Bool) :
    Option (MalWeakStorage V) :=
  match storage.buckets with
  | none => some storage
  | some buckets =>
    if storage.size ≤ weakInlineCapacity then some (weakDemote storage)
    else if buckets.capacity > hashGroupWidth ∧ storage.size ≤ buckets.capacity / 4 then
      (weakCapacity storage.size).bind (weakRebuild fresh storage)
    else if afterFilter = true ∧ storage.deleted ≥ buckets.capacity / 4 then
      weakRebuild fresh storage buckets.capacity
    else some storage

section Upsert

variable (fresh : ℕ → MalValue × V) (undefined : V)

def weakPlace (storage : MalWeakStorage V) (key : MalValue) (hash : BitVec 64) (slot : ℕ) :
    Option (MalWeakStorage V × ℕ) :=
  storage.buckets.map fun buckets =>
    ({ storage with
        buckets := some (hashIndexInsert buckets slot (key, undefined) hash)
        deleted := storage.deleted - (buckets.controls slot == hashDeleted).toNat
        size := storage.size + 1 }, slot)

def weakMustRebuild (storage : MalWeakStorage V) (members slot : ℕ) : Bool :=
  match storage.buckets with
  | none => true
  | some buckets =>
    !hashIndexFits (members + storage.deleted - (buckets.controls slot == hashDeleted).toNat) buckets.capacity

def weakInsert (storage : MalWeakStorage V) (key : MalValue) (hash : BitVec 64) (slot : ℕ) :
    Option (MalWeakStorage V × ℕ) :=
  if storage.buckets.isNone && decide (storage.size < weakInlineCapacity) then
    some ({ storage with
      small := update storage.small slot (key, undefined)
      size := storage.size + 1 }, slot)
  else
    let members := if storage.reserveSize > storage.size + 1 then storage.reserveSize else storage.size + 1
    if weakMustRebuild storage members slot then do
      let capacity ← weakCapacity members
      let storage ← weakRebuild fresh storage capacity
      let slot ← weakFind storage key (keyHashMix key)
      weakPlace undefined storage key (keyHashMix key) slot
    else weakPlace undefined storage key hash slot

/-- the storage, the key's slot and whether it was inserted -/
def weakUpsert (storage : MalWeakStorage V) (key : MalValue) : Option (MalWeakStorage V × ℕ × Bool) :=
  let hash := if storage.buckets.isNone then 0 else keyHashMix key
  (weakFind storage key hash).bind fun slot =>
    if weakLive storage slot then some (storage, slot, false)
    else (weakInsert fresh undefined storage key hash slot).map fun (storage, slot) => (storage, slot, true)

end Upsert

def weakErase (storage : MalWeakStorage V) (slot : ℕ) : MalWeakStorage V :=
  match storage.buckets with
  | none =>
    { storage with
      small := if slot + 1 ≠ storage.size then
          update storage.small slot (storage.small (storage.size - 1))
        else storage.small
      size := storage.size - 1 }
  | some buckets =>
    let (buckets, deleted) := hashIndexErase buckets slot
    { storage with buckets := some buckets, deleted := storage.deleted + deleted.toNat, size := storage.size - 1 }

/-- `some none`: the key is not there -/
def weakLookup (registered : MalValue → Bool) (storage : Option (MalWeakStorage V)) (key : MalValue) :
    Option (Option ℕ) :=
  match storage with
  | none => some none
  | some storage =>
    if storage.size = 0 || !weakKeyCanBeHeld registered key then some none
    else
      (weakFind storage key (if storage.buckets.isNone then 0 else keyHashMix key)).map fun slot =>
        if weakLive storage slot then some slot else none

def weakDelete (registered : MalValue → Bool) (fresh : ℕ → MalValue × V) (storage : Option (MalWeakStorage V))
    (key : MalValue) : Option (Option (MalWeakStorage V) × Bool) :=
  (weakLookup registered storage key).bind fun slot =>
    match storage, slot with
    | some storage, some slot => (weakMaintain fresh (weakErase storage slot) false).map fun storage => (some storage, true)
    | storage, _ => some (storage, false)

def weakReserve (fresh : ℕ → MalValue × V) (entries : Option (MalWeakStorage V)) (desiredSize : ℕ) :
    Option (Option (MalWeakStorage V) × Bool) :=
  match weakCapacity desiredSize with
  | none => some (entries, false)
  | some capacity =>
    if desiredSize = 0 || (entries.any fun storage => decide (desiredSize ≤ storage.size)) then some (entries, true)
    else
      let storage := entries.getD (weakStorageNew fresh)
      match storage.buckets with
      | none => some (some { storage with reserveSize := max storage.reserveSize desiredSize }, true)
      | some buckets =>
        if capacity > buckets.capacity then (weakRebuild fresh storage capacity).map fun storage => (some storage, true)
        else some (some storage, true)

/-- the inline scan: an erased row is replaced by the last one, which is looked at next -/
def weakRetainInline (keep : MalValue → Bool) : ℕ → ℕ → MalWeakStorage V → MalWeakStorage V
  | 0, _, storage => storage
  | fuel + 1, i, storage =>
    if i < storage.size then
      if keep (weakRow storage i).1 then weakRetainInline keep fuel (i + 1) storage
      else weakRetainInline keep fuel i (weakErase storage i)
    else storage

def weakRetainBucket (keep : MalValue → Bool) (storage : MalWeakStorage V) (i : ℕ) : MalWeakStorage V :=
  if weakLive storage i && !keep (weakRow storage i).1 then weakErase storage i else storage

def weakRetainRows (keep : MalValue → Bool) (storage : MalWeakStorage V) : MalWeakStorage V :=
  match storage.buckets with
  | none => weakRetainInline keep storage.size 0 storage
  | some buckets => (List.range buckets.capacity).foldl (weakRetainBucket keep) storage

/-- the storage and the number of rows removed -/
def weakRetain (fresh : ℕ → MalValue × V) (keep : MalValue → Bool) (storage : Option (MalWeakStorage V)) :
    Option (Option (MalWeakStorage V) × ℕ) :=
  match storage with
  | none => some (none, 0)
  | some storage =>
    let retained := weakRetainRows keep storage
    let removed := storage.size - retained.size
    if removed ≠ 0 then (weakMaintain fresh retained true).map fun storage => (some storage, removed)
    else some (some retained, removed)

/-! ## WeakMap -/

structure MalWeakMapObject where
  entries : Option (MalWeakStorage MalValue)

structure MalWeakSetObject where
  entries : Option (MalWeakStorage Unit)

def weakSetValue (storage : MalWeakStorage MalValue) (slot : ℕ) (value : MalValue) : MalWeakStorage MalValue :=
  match storage.buckets with
  | none => { storage with small := update storage.small slot ((storage.small slot).1, value) }
  | some buckets =>
    { storage with
      buckets := some { buckets with slots := update buckets.slots slot ((buckets.slots slot).1, value) } }

section Map

variable (registered : MalValue → Bool) (fresh : ℕ → MalValue × MalValue)

section

variable (map : MalWeakMapObject) (key : MalValue)

def weakMapStore (value : MalValue) (preserve : Bool) : Option (MalWeakMapObject × MalValue) :=
  if !weakKeyCanBeHeld registered key then none
  else
    (weakUpsert fresh valueUndefined (map.entries.getD (weakStorageNew fresh)) key).map fun (storage, slot, inserted) =>
      if !inserted && preserve then (⟨some storage⟩, (weakRow storage slot).2)
      else (⟨some (weakSetValue storage slot value)⟩, value)

def weakMapObjectSet (value : MalValue) : Option MalWeakMapObject :=
  (weakMapStore registered fresh map key value false).map Prod.fst

def weakMapObjectGetOrInsert (value : MalValue) : Option (MalWeakMapObject × MalValue) :=
  weakMapStore registered fresh map key value true

/-- `some none`: there is no such key -/
def weakMapObjectLookup : Option (Option MalValue) :=
  (weakLookup registered map.entries key).map fun slot =>
    match map.entries, slot with
    | some storage, some slot => some (weakRow storage slot).2
    | _, _ => none

def weakMapObjectGet : Option MalValue :=
  (weakMapObjectLookup registered map key).map (·.getD valueUndefined)

def weakMapObjectHas : Option Bool :=
  (weakLookup registered map.entries key).map Option.isSome

def weakMapObjectDelete : Option (MalWeakMapObject × Bool) :=
  (weakDelete registered fresh map.entries key).map fun (entries, found) => (⟨entries⟩, found)

def weakMapObjectSize : ℕ := map.entries.elim 0 MalWeakStorage.size

def weakMapObjectReserve (desiredSize : ℕ) : Option (MalWeakMapObject × Bool) :=
  (weakReserve fresh map.entries desiredSize).map fun (entries, ok) => (⟨entries⟩, ok)

def weakMapStorageRetain (keep : MalValue → Bool) : Option (MalWeakMapObject × ℕ) :=
  (weakRetain fresh keep map.entries).map fun (entries, removed) => (⟨entries⟩, removed)

end

end Map

/-! ## WeakSet -/

section Set

variable (registered : MalValue → Bool) (fresh : ℕ → MalValue × Unit)

def weakSetObjectAdd (set : MalWeakSetObject) (key : MalValue) : Option MalWeakSetObject :=
  if !weakKeyCanBeHeld registered key then none
  else
    (weakUpsert fresh () (set.entries.getD (weakStorageNew fresh)) key).map fun (storage, _) => ⟨some storage⟩

def weakSetObjectHas (set : MalWeakSetObject) (key : MalValue) : Option Bool :=
  (weakLookup registered set.entries key).map Option.isSome

def weakSetObjectDelete (set : MalWeakSetObject) (key : MalValue) : Option (MalWeakSetObject × Bool) :=
  (weakDelete registered fresh set.entries key).map fun (entries, found) => (⟨entries⟩, found)

def weakSetObjectSize (set : MalWeakSetObject) : ℕ := set.entries.elim 0 MalWeakStorage.size

def weakSetObjectReserve (set : MalWeakSetObject) (desiredSize : ℕ) : Option (MalWeakSetObject × Bool) :=
  (weakReserve fresh set.entries desiredSize).map fun (entries, ok) => (⟨entries⟩, ok)

def weakSetStorageRetain (set : MalWeakSetObject) (keep : MalValue → Bool) : Option (MalWeakSetObject × ℕ) :=
  (weakRetain fresh keep set.entries).map fun (entries, removed) => (⟨entries⟩, removed)

end Set

end Maligator.Weak
