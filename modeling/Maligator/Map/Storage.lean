/-
Model of Map storage (`map_object.c`).

One logical map has three layouts: four rows inline in the descriptor (`payload = none`), packed int32 keys beside their
values, and key/value pairs. `MalMapPayload` keeps the packed and the pair view of the allocation apart; a view the
storage's domain does not select is never read. Likewise `small`, `smallValues` and the packed lane share a union in the
source and are separate fields here. Fresh allocations hold arbitrary rows (`MapEnv.fresh`, `MapEnv.freshSlots`).

`none` is an abort. Write barriers, cards and counters have no effect on the contents and are left out.
-/
import Maligator.Capacity
import Maligator.KeyDomain

namespace Maligator.MapObject

open HashIndex Function

/-! ## Data -/

def mapSmallCapacity : ℕ := 4

structure MalMapPair where
  key : MalValue
  value : MalValue

/-- a payload allocation, seen as packed rows and as pairs -/
structure MalMapPayload where
  ints : ℕ → BitVec 32
  int32Values : ℕ → MalValue
  pairs : ℕ → MalMapPair

structure MalMapStorage where
  payload : Option MalMapPayload
  index : MalHashIndex ℕ
  size : ℕ
  count : ℕ
  capacity : ℕ
  deletedSlots : ℕ
  pins : ℕ
  reserveSize : ℕ
  entryHint : ℕ
  hintKey : MalValue
  domain : MalMapKeyDomain
  ownerReleased : Bool
  small : ℕ → MalValue
  smallValues : ℕ → MalValue

structure MalMapObject where
  entries : Option MalMapStorage

/-- key contents, and what a fresh payload or index allocation happens to hold -/
structure MapEnv extends KeyEnv where
  fresh : MalMapPayload
  freshSlots : ℕ → ℕ

instance : Coe MapEnv KeyEnv := ⟨MapEnv.toKeyEnv⟩

inductive MalStringStorage where
  | owned
  | inlined
  | external
  | preparedUtf8
  | dependent
  | cons
  | builder
  deriving DecidableEq

/-- the representation of a string cell at the time of a call, and the allocator's size classes -/
structure StringView where
  storage : MalValue → MalStringStorage
  latin1 : MalValue → Bool
  length : MalValue → ℕ
  retainedCapacity : MalValue → ℕ
  allocationCharge : ℕ → ℕ

/-! ## Rows -/

section

variable (payload : MalMapPayload) (domain : MalMapKeyDomain) (index : ℕ)

/-- `sizeof(i32) + sizeof(MalValue)` or `sizeof(MalMapPair)` -/
def mapRowWidth : ℕ := if domain = .int32 then 12 else 16

def payloadValue : MalValue :=
  if domain = .int32 then payload.int32Values index else (payload.pairs index).value

def payloadKey : MalValue :=
  if domain = .int32 then valueFromF64OfI32 (payload.ints index) else (payload.pairs index).key

def mapValueAt (storage : MalMapStorage) (index : ℕ) : MalValue :=
  match storage.payload with
  | none => storage.smallValues index
  | some payload => payloadValue payload storage.domain index

def mapIsLive (storage : MalMapStorage) (index : ℕ) : Bool :=
  match storage.payload with
  | none => storage.small index != valueEmpty
  | some _ => mapValueAt storage index != valueEmpty

def mapKeyAt (storage : MalMapStorage) (index : ℕ) : MalValue :=
  match storage.payload with
  | none => storage.small index
  | some payload => payloadKey payload storage.domain index

def mapStoreKey (key : MalValue) : MalMapPayload :=
  if domain = .int32 then { payload with ints := update payload.ints index (valueF64ToI32 key) }
  else { payload with pairs := update payload.pairs index ⟨key, (payload.pairs index).value⟩ }

def mapStoreValue (value : MalValue) : MalMapPayload :=
  if domain = .int32 then { payload with int32Values := update payload.int32Values index value }
  else { payload with pairs := update payload.pairs index ⟨(payload.pairs index).key, value⟩ }

end

section

variable (env : KeyEnv) (storage : MalMapStorage)

/-- `*mal_map_value_slot(storage, index) = value` -/
def mapSetValue (index : ℕ) (value : MalValue) : MalMapStorage :=
  match storage.payload with
  | none => { storage with smallValues := update storage.smallValues index value }
  | some payload => { storage with payload := some (mapStoreValue payload storage.domain index value) }

/-- the key of a row written in place, as `mal_map_compact` and `mal_map_object_update_entry` do -/
def mapSetKey (index : ℕ) (key : MalValue) : MalMapStorage :=
  match storage.payload with
  | none => { storage with small := update storage.small index key }
  | some payload => { storage with payload := some (mapStoreKey payload storage.domain index key) }

/-! ## Lookups -/

def mapKeyEqualsSlow (domain : MalMapKeyDomain) (candidate key : MalValue) : Bool :=
  if domain = .string then valueIsString key && stringEquals env candidate key
  else domain == .generic && keyValueEquals env candidate key

/-- the candidate test of a probe specialised by `domain` -/
def mapProbeHit (domain : MalMapKeyDomain) (key : MalValue) (intKey : BitVec 32) (index : ℕ)
    : Bool :=
  match storage.payload with
  | none => false
  | some payload =>
    if domain = .int32 then payload.ints index == intKey else probeEquals env domain (payload.pairs index).key key

/-- `some none` is UINT32_MAX -/
def mapProbeIn (domain : MalMapKeyDomain) (key : MalValue) (intKey : BitVec 32)
    (hash : BitVec 64) (insert : Bool) : Option (Option ℕ) :=
  hashSearch storage.index.controls storage.index.capacity hash
    (fun slot => mapProbeHit env storage domain key intKey (storage.index.slots slot)) insert

def mapProbe (key : MalValue) (intKey : BitVec 32) (hash : BitVec 64) (insert : Bool)
    : Option (Option ℕ) :=
  match storage.domain with
  | .int32 => mapProbeIn env storage .int32 key intKey hash insert
  | .string => mapProbeIn env storage .string key 0 hash insert
  | .generic => mapProbeIn env storage .generic key 0 hash insert
  | _ => mapProbeIn env storage .identity key 0 hash insert

def mapFindSlot (key : MalValue) (hash : BitVec 64) : Option ℕ := do
  let intKey := if storage.domain = .int32 then valueF64ToI32 key else 0
  let found ← mapProbe env storage key intKey hash true
  found

/-- `none` when the query is outside the stored domain, else the int32 key, 0 outside packed storage -/
def mapQueryInDomain (key : MalValue) : Option (BitVec 32) :=
  match storage.domain with
  | .int32 => int32Query key
  | .number => if valueIsF64 key then some 0 else none
  | .string => if valueIsString key then some 0 else none
  | .identity => if valueIsObject key || valueIsSymbol key then some 0 else none
  | .generic => some 0
  | .empty => none

def mapLookupSlot (key : MalValue) : Option (Option ℕ) :=
  match mapQueryInDomain storage key with
  | none => some none
  | some intKey => mapProbe env storage key intKey (keyHashValue env key) false

/-- 1-based; 0 is absent -/
def mapSmallFind (key : MalValue) : ℕ :=
  match (List.range storage.count).find? fun i =>
    storage.small i != valueEmpty &&
      (storage.small i == key || mapKeyEqualsSlow env storage.domain (storage.small i) key) with
  | some i => i + 1
  | none => 0

def mapStorageFind (storage : Option MalMapStorage) (key : MalValue) : Option ℕ :=
  match storage with
  | none => some 0
  | some storage =>
    if storage.size = 0 then some 0
    else if storage.payload.isNone then some (mapSmallFind env storage key)
    else (mapLookupSlot env storage key).map fun slot => slot.elim 0 fun slot => storage.index.slots slot + 1

/-! ## Growth -/

def mapCapacity (required minimum : ℕ) : Option ℕ := collectionCapacity required minimum

def mapSlotCapacity (members : ℕ) : Option ℕ := collectionSlotCapacity members

/-- the conversion loop of `mal_map_replace_payload` -/
def mapConvertRow (domain : MalMapKeyDomain) (payload : MalMapPayload) (i : ℕ) :
    MalMapPayload :=
  let value := mapValueAt storage i
  let payload := mapStoreValue payload domain i value
  if value = valueEmpty then payload else mapStoreKey payload domain i (mapKeyAt storage i)

def mapReplacePayload (env : MapEnv) (storage : MalMapStorage) (domain : MalMapKeyDomain) (capacity : ℕ) :
    MalMapStorage :=
  let converted := (List.range storage.count).foldl (mapConvertRow storage domain) env.fresh
  let payload := match storage.payload with
    | none => converted
    | some old =>
      if mapRowWidth domain = mapRowWidth storage.domain then
        if domain = .int32 then
          { env.fresh with
            ints := copyRows storage.count old.ints env.fresh.ints
            int32Values := copyRows storage.count old.int32Values env.fresh.int32Values }
        else { env.fresh with pairs := copyRows storage.count old.pairs env.fresh.pairs }
      else converted
  { storage with payload := some payload, capacity := capacity, domain := domain }

def mapFillSlots (slots : ℕ → ℕ) (capacity : ℕ) : Option MalMapStorage := do
  let index ← hashIndexFill (fun i => keyHashValue env (mapKeyAt storage i)) (hashIndexReset slots capacity)
    ((List.range storage.count).filter (mapIsLive storage))
  return { storage with index := index, deletedSlots := 0 }

def mapRehash (env : MapEnv) (storage : MalMapStorage) (capacity : ℕ) : Option MalMapStorage :=
  mapFillSlots env.toKeyEnv storage env.freshSlots capacity

/-! ## Compaction -/

def mapCompactRow (st : MalMapStorage × ℕ) (i : ℕ) : MalMapStorage × ℕ :=
  let value := mapValueAt st.1 i
  if value = valueEmpty then st
  else (mapSetValue (mapSetKey st.1 st.2 (mapKeyAt st.1 i)) st.2 value, st.2 + 1)

def mapDemote : MalMapStorage :=
  { storage with
    payload := none
    index := { storage.index with capacity := 0 }
    small := copyRows storage.count (mapKeyAt storage) storage.small
    smallValues := copyRows storage.count (mapValueAt storage) storage.smallValues
    capacity := mapSmallCapacity
    deletedSlots := 0
    reserveSize := 0
    domain := if storage.count = 0 then .empty else storage.domain }

/-- the entry hint dropped: rows are about to be renumbered or removed -/
def mapForgetHint : MalMapStorage := { storage with entryHint := 0, hintKey := valueEmpty }

def mapCompactRows : MalMapStorage :=
  let (storage, count) :=
    if storage.size ≠ 0 then (List.range storage.count).foldl mapCompactRow (storage, 0) else (storage, 0)
  { storage with count := count }

def mapCompactFinish (env : MapEnv) (storage : MalMapStorage) : Option MalMapStorage :=
  if storage.count ≤ mapSmallCapacity then some (mapDemote storage)
  else do
    let capacity ← mapCapacity storage.count 4
    let storage :=
      if capacity < storage.capacity then mapReplacePayload env storage storage.domain capacity else storage
    let slots ← mapSlotCapacity storage.count
    if slots ≠ storage.index.capacity then mapRehash env storage slots
    else mapFillSlots env.toKeyEnv storage storage.index.slots slots

def mapCompact (env : MapEnv) (storage : MalMapStorage) : Option MalMapStorage :=
  if storage.pins ≠ 0 then some storage else mapCompactFinish env (mapCompactRows (mapForgetHint storage))

def mapShouldCompact : Bool :=
  let dead := storage.count - storage.size
  decide (storage.pins = 0 ∧ dead ≠ 0 ∧
    (storage.size = 0 ∨ storage.payload.isNone = true ∨
      (dead ≥ 16 ∧ (dead ≥ storage.size ∨ (storage.count = storage.capacity ∧ dead ≥ storage.size / 4)))))

def mapCompactIfDue (env : MapEnv) (storage : MalMapStorage) : Option MalMapStorage :=
  if mapShouldCompact storage then mapCompact env storage else some storage

/-! ## The descriptor and the entry hint -/

def mapStorageNew (env : MapEnv) : MalMapStorage where
  payload := none
  index := ⟨0, fun _ => hashEmpty, env.freshSlots⟩
  size := 0
  count := 0
  capacity := mapSmallCapacity
  deletedSlots := 0
  pins := 0
  reserveSize := 0
  entryHint := 0
  hintKey := 0
  domain := .empty
  ownerReleased := false
  small := fun _ => 0
  smallValues := fun _ => 0

def mapObjectStorage (env : MapEnv) (map : MalMapObject) : MalMapStorage := map.entries.getD (mapStorageNew env)

section

variable (map : MalMapObject) (key : MalValue)

def mapStorageEntryHint (storage : Option MalMapStorage) (key : MalValue) : ℕ :=
  match storage with
  | none => 0
  | some storage =>
    if storage.entryHint = 0 then 0
    else if storage.hintKey = key then storage.entryHint
    else if !valueIsString key && !valueIsBigint key then 0
    else if keyValueEquals env storage.hintKey key then storage.entryHint else 0

def mapStorageRememberEntry (storage : MalMapStorage) (entry : ℕ) : MalMapStorage :=
  if storage.entryHint = entry then storage
  else { storage with hintKey := if entry = 0 then valueEmpty else mapKeyAt storage (entry - 1), entryHint := entry }

/-- returns the storage with its hint refreshed, and the entry -/
def mapStorageFindHinted (storage : Option MalMapStorage) (key : MalValue) : Option (Option MalMapStorage × ℕ) :=
  let entry := mapStorageEntryHint env storage key
  if entry ≠ 0 then some (storage, entry)
  else do
    let entry ← mapStorageFind env storage key
    return if entry ≠ 0 then (storage.map (mapStorageRememberEntry · entry), entry) else (storage, entry)

def mapStorageFindsBits (storage : MalMapStorage) : Bool :=
  storage.payload.isSome && (storage.domain = .int32 || storage.domain = .identity)

def mapProbeBits (storage : MalMapStorage) (key : MalValue) (intKey : BitVec 32) : Option (Option ℕ) :=
  if storage.domain = .int32 then mapProbeIn env storage .int32 key intKey (keyHashMix key) false
  else mapProbeIn env storage .identity key 0 (keyHashMix key) false

def mapStorageFindBits (storage : MalMapStorage) (key : MalValue) : Option (MalMapStorage × ℕ) :=
  if storage.entryHint ≠ 0 ∧ storage.hintKey = key then some (storage, storage.entryHint)
  else
    match mapQueryInDomain storage key with
    | none => some (storage, 0)
    | some intKey => do
      let slot ← mapProbeBits env storage key intKey
      return match slot with
        | none => (storage, 0)
        | some slot =>
          let entry := storage.index.slots slot + 1
          (mapStorageRememberEntry storage entry, entry)

/-! ## Entry points -/

def mapObjectFindCanonical : Option ℕ :=
  mapStorageFind env map.entries key

def mapObjectHas (value : MalValue) : Option Bool :=
  (mapObjectFindCanonical env map (collectionCanonicalValue value)).map (· != 0)

def mapEntryValue (storage : Option MalMapStorage) (entry : ℕ) : MalValue :=
  match storage with
  | none => valueUndefined
  | some storage => if entry = 0 then valueUndefined else mapValueAt storage (entry - 1)

def mapObjectGet : Option MalValue :=
  (mapObjectFindCanonical env map (collectionCanonicalValue key)).map (mapEntryValue map.entries)

def mapObjectFindHinted : Option (MalMapObject × ℕ) :=
  match map.entries with
  | some storage =>
    if mapStorageFindsBits storage then
      (mapStorageFindBits env storage key).map fun (storage, entry) => (⟨some storage⟩, entry)
    else (mapStorageFindHinted env map.entries key).map fun (entries, entry) => (⟨entries⟩, entry)
  | none => (mapStorageFindHinted env map.entries key).map fun (entries, entry) => (⟨entries⟩, entry)

def mapObjectGetHinted : Option (MalMapObject × MalValue) :=
  (mapObjectFindHinted env map key).map fun (map, entry) => (map, mapEntryValue map.entries entry)

def mapObjectGetBorrowed : Option (MalMapObject × MalValue × ℕ) :=
  (mapObjectFindHinted env map key).map fun (map, entry) => (map, mapEntryValue map.entries entry, entry)

end

/-- room for the new row, and for what was reserved, in a payload of the widened domain -/
def mapGrowPayload (env : MapEnv) (storage : MalMapStorage) (domain : MalMapKeyDomain) : Option MalMapStorage := do
  let desired := storage.count + 1 +
    (if storage.reserveSize > storage.size then storage.reserveSize - storage.size - 1 else 0)
  let capacity ← mapCapacity desired (if storage.payload.isNone then 4 else storage.capacity)
  return if storage.payload.isNone || capacity != storage.capacity ||
      mapRowWidth domain != mapRowWidth storage.domain then
    mapReplacePayload env storage domain capacity
  else { storage with domain := domain }

/-- room for one more bucket; a rebuild loses the slot found before -/
def mapGrowIndex (env : MapEnv) (storage : MalMapStorage) (knownSlot : Option ℕ) :
    Option (MalMapStorage × Option ℕ) :=
  let members := if storage.reserveSize > storage.size + 1 then storage.reserveSize else storage.size + 1
  let reusesDeleted := knownSlot.any fun slot => storage.index.controls slot == hashDeleted
  if storage.index.capacity = 0 ||
      !hashIndexFits (members + storage.deletedSlots - reusesDeleted.toNat) storage.index.capacity then do
    let slots ← mapSlotCapacity members
    let storage ← mapRehash env storage slots
    return (storage, none)
  else some (storage, knownSlot)

/-- the new row at the end, live with an UNDEFINED value, and its bucket -/
def mapAppendRow (storage : MalMapStorage) (key : MalValue) (slot : ℕ) (hash : BitVec 64) : MalMapStorage :=
  let index := storage.count
  let storage := mapSetValue (mapSetKey storage index key) index valueUndefined
  { storage with
    count := storage.count + 1
    deletedSlots := storage.deletedSlots - (storage.index.controls slot == hashDeleted).toNat
    index := hashIndexInsert storage.index slot index hash
    reserveSize := 0
    size := storage.size + 1 }

/-- the bucket an insertion uses: the one the search already found, or the answer of a new search -/
def mapInsertSlot (storage : MalMapStorage) (key : MalValue) (hash : BitVec 64) (knownSlot : Option ℕ) : Option ℕ :=
  match knownSlot with
  | some slot => some slot
  | none => mapFindSlot env storage key hash

def mapInsertHashed (env : MapEnv) (storage : MalMapStorage) (key : MalValue) (domain : MalMapKeyDomain)
    (knownSlot : Option ℕ) : Option MalMapStorage := do
  let storage ← mapGrowPayload env storage domain
  let (storage, knownSlot) ← mapGrowIndex env storage knownSlot
  let hash := keyHashValue env.toKeyEnv key
  let slot ← mapInsertSlot env.toKeyEnv storage key hash knownSlot
  return mapAppendRow storage key slot hash

def mapInsertInline (storage : MalMapStorage) (key : MalValue) (domain : MalMapKeyDomain) : MalMapStorage :=
  let index := storage.count
  { storage with
    small := update storage.small index key
    smallValues := update storage.smallValues index valueUndefined
    domain := domain
    count := storage.count + 1
    size := storage.size + 1 }

/-- the search of an upsert: no bucket for an inline storage or a domain that refuses the key -/
def mapUpsertSlot (storage : MalMapStorage) (key : MalValue) (accepts : Bool) : Option (Option ℕ) :=
  if storage.payload.isSome && accepts then (mapFindSlot env storage key (keyHashValue env key)).map some
  else some none

def mapUpsertExisting (storage : MalMapStorage) (key : MalValue) (accepts : Bool) (knownSlot : Option ℕ) : ℕ :=
  match knownSlot with
  | some slot => if hashSlotLive storage.index.controls slot then storage.index.slots slot + 1 else 0
  | none => if accepts then mapSmallFind env storage key else 0

def mapUpsertNew (env : MapEnv) (storage : MalMapStorage) (key : MalValue) (knownSlot : Option ℕ) :
    Option MalMapStorage :=
  let domain := joinDomain storage.domain (insertDomain storage.domain key)
  if storage.payload.isNone && storage.count < mapSmallCapacity then some (mapInsertInline storage key domain)
  else mapInsertHashed env storage key domain knownSlot

/-- returns the storage, the 1-based entry and whether it is new -/
def mapUpsert (env : MapEnv) (storage : MalMapStorage) (key : MalValue) : Option (MalMapStorage × ℕ × Bool) := do
  let storage ← mapCompactIfDue env storage
  let accepts := acceptsDomain storage.domain (insertDomain storage.domain key)
  let knownSlot ← mapUpsertSlot env.toKeyEnv storage key accepts
  let existing := mapUpsertExisting env.toKeyEnv storage key accepts knownSlot
  if existing ≠ 0 then return (storage, existing, false)
  else
    let inserted ← mapUpsertNew env storage key knownSlot
    return (inserted, storage.count + 1, true)

/-- whether an equal string key is worth adopting for its compact backing -/
def mapCompactKey (strings : StringView) (key oldKey : MalValue) : Bool :=
  match strings.storage key with
  | .inlined => true
  | .owned | .preparedUtf8 =>
    let unitSize := if strings.latin1 key || strings.latin1 oldKey then 1 else 2
    decide (strings.retainedCapacity key ≤ strings.allocationCharge (strings.length key * unitSize))
  | _ => false

def mapUpdateEntry (strings : StringView) (storage : MalMapStorage) (entry : ℕ) (key value : MalValue) :
    MalMapStorage :=
  let index := entry - 1
  let storage := mapSetValue storage index value
  let oldKey := mapKeyAt storage index
  if valueIsString key && oldKey != key && mapCompactKey strings key oldKey then
    let storage := mapSetKey storage index key
    if storage.entryHint = entry then { storage with hintKey := key } else storage
  else storage

def mapSetHinted (env : MapEnv) (strings : StringView) (map : MalMapObject) (key value : MalValue) :
    Option MalMapObject := do
  let entry := mapStorageEntryHint env.toKeyEnv map.entries key
  let (storage, entry, inserted) ←
    if entry = 0 then mapUpsert env (mapObjectStorage env map) key
    else map.entries.map fun storage => (storage, entry, false)
  let storage := if inserted then mapSetValue storage (entry - 1) value
    else mapUpdateEntry strings storage entry key value
  return ⟨some (mapStorageRememberEntry storage entry)⟩

def mapObjectSet (env : MapEnv) (strings : StringView) (map : MalMapObject) (key value : MalValue) :
    Option MalMapObject := do
  let key := collectionCanonicalValue key
  let (storage, entry, _) ← mapUpsert env (mapObjectStorage env map) key
  return ⟨some (mapUpdateEntry strings storage entry key value)⟩

def mapEntryMatches (storage : MalMapStorage) (key : MalValue) (entry : ℕ) : Bool :=
  decide (entry ≠ 0) && decide (entry ≤ storage.count) && mapIsLive storage (entry - 1) &&
    (mapKeyAt storage (entry - 1) == key ||
      mapKeyEqualsSlow env storage.domain (mapKeyAt storage (entry - 1)) key)

end

section

variable (env : MapEnv) (map : MalMapObject)

def mapObjectSetBorrowed (strings : StringView) (map : MalMapObject) (key value : MalValue) (entry : ℕ)
    : Option MalMapObject :=
  match map.entries with
  | some storage =>
    if mapEntryMatches env.toKeyEnv storage key entry then
      some ⟨some (mapStorageRememberEntry (mapUpdateEntry strings storage entry key value) entry)⟩
    else mapSetHinted env strings map key value
  | none => mapSetHinted env strings map key value

def mapDropHint (storage : MalMapStorage) (entry : ℕ) : MalMapStorage :=
  if storage.entryHint = entry then mapForgetHint storage else storage

/-- the key of an inline row cleared; a payload row keeps its key -/
def mapEmptySmall (storage : MalMapStorage) (index : ℕ) : MalMapStorage :=
  match storage.payload with
  | none => { storage with small := update storage.small index valueEmpty }
  | some _ => storage

/-- take row `index` out, whose bucket is already released -/
def mapDeleteRow (storage : MalMapStorage) (index : ℕ) : MalMapStorage :=
  let storage := mapSetValue (mapEmptySmall (mapDropHint storage (index + 1)) index) index valueEmpty
  { storage with size := storage.size - 1 }

def mapReleaseSlot (storage : MalMapStorage) (slot : ℕ) : MalMapStorage :=
  let (index, deleted) := hashIndexErase storage.index slot
  { storage with index := index, deletedSlots := storage.deletedSlots + deleted.toNat }

def mapDeleteCanonical (key : MalValue) : Option (MalMapObject × Bool) :=
  match map.entries with
  | none => some (map, false)
  | some storage =>
    if storage.size = 0 then some (map, false)
    else if storage.payload.isNone then
      let entry := mapSmallFind env.toKeyEnv storage key
      if entry = 0 then some (map, false)
      else (mapCompactIfDue env (mapDeleteRow storage (entry - 1))).map fun storage => (⟨some storage⟩, true)
    else do
      let found ← mapLookupSlot env.toKeyEnv storage key
      match found with
      | none => return (map, false)
      | some slot =>
        let storage ← mapCompactIfDue env (mapDeleteRow (mapReleaseSlot storage slot) (storage.index.slots slot))
        return (⟨some storage⟩, true)

def mapObjectDelete (value : MalValue) : Option (MalMapObject × Bool) :=
  mapDeleteCanonical env map (collectionCanonicalValue value)

def mapObjectSize : ℕ := map.entries.elim 0 fun storage => storage.size

def mapClearPayload (payload : MalMapPayload) (domain : MalMapKeyDomain) (count : ℕ) : MalMapPayload :=
  if domain = .int32 then
    { payload with int32Values := copyRows count (fun _ => valueEmpty) payload.int32Values }
  else
    { payload with pairs := copyRows count (fun i => ⟨(payload.pairs i).key, valueEmpty⟩) payload.pairs }

/-- every row a tombstone, the index empty, positions kept: the clear of a pinned storage -/
def mapClearRows (storage : MalMapStorage) : MalMapStorage :=
  let cleared := match storage.payload with
    | none => { storage with
        small := copyRows storage.count (fun _ => valueEmpty) storage.small
        smallValues := copyRows storage.count (fun _ => valueEmpty) storage.smallValues }
    | some payload => { storage with payload := some (mapClearPayload payload storage.domain storage.count) }
  { cleared with
    index := if storage.index.capacity ≠ 0 then hashIndexReset storage.index.slots storage.index.capacity
      else storage.index
    deletedSlots := 0 }

def mapObjectClear : Option MalMapObject :=
  match map.entries with
  | none => some map
  | some storage =>
    let storage := { mapForgetHint storage with size := 0 }
    if storage.pins = 0 ∧ storage.count ≠ 0 then (mapCompact env storage).map fun storage => ⟨some storage⟩
    else some ⟨some (mapClearRows storage)⟩

def mapObjectReserve (desiredSize : ℕ) : Option (MalMapObject × Bool) :=
  match mapCapacity desiredSize 4, mapSlotCapacity desiredSize with
  | some _, some slots =>
    if desiredSize ≤ mapObjectSize map then some (map, true)
    else
      let storage := mapObjectStorage env map
      if storage.payload.isNone then
        some (⟨some { storage with reserveSize := max storage.reserveSize desiredSize }⟩, true)
      else
        match mapCapacity (storage.count + desiredSize - storage.size) storage.capacity with
        | none => some (⟨some storage⟩, false)
        | some capacity =>
          let storage :=
            if capacity > storage.capacity then mapReplacePayload env storage storage.domain capacity else storage
          if slots > storage.index.capacity then
            (mapRehash env storage slots).map fun storage => (⟨some storage⟩, true)
          else some (⟨some storage⟩, true)
  | _, _ => some (map, false)

def mapStoragePin : Option MalMapObject :=
  match map.entries with
  | none => some map
  | some storage => if storage.pins = uint32Max then none else some ⟨some { storage with pins := storage.pins + 1 }⟩

/-- `none` when the last pin of a released storage frees it -/
def mapStorageUnpin : Option MalMapObject :=
  match map.entries with
  | none => some map
  | some storage =>
    if storage.pins = 0 then some map
    else
      let storage := { storage with pins := storage.pins - 1 }
      if storage.pins = 0 ∧ storage.ownerReleased = true then none else some ⟨some storage⟩

def mapObjectCompact : Option MalMapObject :=
  match map.entries with
  | none => some map
  | some storage => (mapCompactIfDue env storage).map fun storage => ⟨some storage⟩

end

/-! ## Iteration -/

/-- the scan of `mal_map_iter_next` over the `fuel` positions from `index` on: the row it yields and the new index -/
def mapIterScan (storage : MalMapStorage) : ℕ → ℕ → Option (MalValue × MalValue) × ℕ
  | 0, index => (none, index)
  | fuel + 1, index =>
    if mapValueAt storage index = valueEmpty then mapIterScan storage fuel (index + 1)
    else (some (mapKeyAt storage index, mapValueAt storage index), index + 1)

def mapIterNext (storage : Option MalMapStorage) (index : ℕ) : Option (MalValue × MalValue) × ℕ :=
  match storage with
  | none => (none, index)
  | some storage => mapIterScan storage (storage.count - index) index

/-- the rows a cursor yields from `index` on when nothing else happens -/
def mapIterAll (storage : Option MalMapStorage) : ℕ → ℕ → List (MalValue × MalValue)
  | 0, _ => []
  | fuel + 1, index =>
    match mapIterNext storage index with
    | (none, _) => []
    | (some row, next) => row :: mapIterAll storage fuel next

end Maligator.MapObject
