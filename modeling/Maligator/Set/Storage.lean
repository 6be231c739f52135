/-
Model of Set storage (`set_object.c`).

One logical set has three layouts: four members inline in the descriptor (`payload = none`), packed int32 members with a
lane of control bytes behind them, and tagged words. A dead inline or tagged row holds EMPTY; a dead packed row has its LIVE
bit clear and keeps its number. `MalSetPayload` keeps the views of the allocation apart; a view the storage's domain does
not select is never read. Fresh allocations hold arbitrary rows (`SetEnv.fresh`, `SetEnv.freshSlots`).

`none` is an abort. Write barriers, cards and counters have no effect on the contents and are left out.
-/
import Maligator.Capacity
import Maligator.KeyDomain

namespace Maligator.SetObject

open HashIndex Function

/-! ## Data -/

def setSmallCapacity : ℕ := 4

def setLive : BitVec 8 := 1#8

structure MalSetPayload where
  ints : ℕ → BitVec 32
  controls : ℕ → BitVec 8
  members : ℕ → MalValue

structure MalSetStorage where
  payload : Option MalSetPayload
  index : MalHashIndex ℕ
  size : ℕ
  count : ℕ
  capacity : ℕ
  deletedSlots : ℕ
  pins : ℕ
  reserveSize : ℕ
  domain : MalSetKeyDomain
  ownerReleased : Bool
  small : ℕ → MalValue

structure MalSetObject where
  entries : Option MalSetStorage

structure SetEnv extends KeyEnv where
  fresh : MalSetPayload
  freshSlots : ℕ → ℕ

instance : Coe SetEnv KeyEnv := ⟨SetEnv.toKeyEnv⟩

/-! ## Rows -/

section

variable (env : KeyEnv) (storage : MalSetStorage) (key : MalValue)

/-- `sizeof(i32) + sizeof(u8)` or `sizeof(MalValue)` -/
def setRowWidth (domain : MalSetKeyDomain) : ℕ := if domain = .int32 then 5 else 8

def controlLive (control : BitVec 8) : Bool := control &&& setLive != 0

def setIsLive (index : ℕ) : Bool :=
  match storage.payload with
  | none => storage.small index != valueEmpty
  | some payload =>
    if storage.domain = .int32 then controlLive (payload.controls index) else payload.members index != valueEmpty

def setKeyAt (index : ℕ) : MalValue :=
  match storage.payload with
  | none => storage.small index
  | some payload =>
    if storage.domain = .int32 then valueFromF64OfI32 (payload.ints index) else payload.members index

/-- `mal_set_store_key` and the LIVE control of a packed row -/
def setStoreKey (index : ℕ) (key : MalValue) : MalSetStorage :=
  match storage.payload with
  | none => { storage with small := update storage.small index key }
  | some payload =>
    { storage with
      payload := some (
        if storage.domain = .int32 then
          { payload with
            ints := update payload.ints index (valueF64ToI32 key)
            controls := update payload.controls index setLive }
        else { payload with members := update payload.members index key }) }

def setMarkDeleted (index : ℕ) : MalSetStorage :=
  match storage.payload with
  | none => { storage with small := update storage.small index valueEmpty }
  | some payload =>
    { storage with
      payload := some (
        if storage.domain = .int32 then { payload with controls := update payload.controls index 0 }
        else { payload with members := update payload.members index valueEmpty }) }

/-! ## Lookups -/

def setAcceptsQuery : Bool :=
  decide (storage.domain = .generic) || acceptsDomain storage.domain (keyDomain key)

def setKeyEqualsSlow (domain : MalSetKeyDomain) (candidate key : MalValue) : Bool :=
  if domain = .string then stringEquals env candidate key
  else domain == .generic && keyValueEquals env candidate key

def setSmallKeyEquals (index : ℕ) (key : MalValue) : Bool :=
  storage.small index == key || setKeyEqualsSlow env storage.domain (storage.small index) key

def setProbeHit (domain : MalSetKeyDomain) (key : MalValue) (intKey : BitVec 32) (index : ℕ)
    : Bool :=
  match storage.payload with
  | none => false
  | some payload =>
    if domain = .int32 then payload.ints index == intKey else probeEquals env domain (payload.members index) key

def setProbeIn (domain : MalSetKeyDomain) (key : MalValue) (intKey : BitVec 32)
    (hash : BitVec 64) (insert : Bool) : Option (Option ℕ) :=
  hashSearch storage.index.controls storage.index.capacity hash
    (fun slot => setProbeHit env storage domain key intKey (storage.index.slots slot)) insert

def setProbe (intKey : BitVec 32) (hash : BitVec 64) (insert : Bool)
    : Option (Option ℕ) :=
  match storage.domain with
  | .int32 => setProbeIn env storage .int32 key intKey hash insert
  | .string => setProbeIn env storage .string key 0 hash insert
  | .generic => setProbeIn env storage .generic key 0 hash insert
  | _ => setProbeIn env storage .identity key 0 hash insert

def setFindSlot (hash : BitVec 64) : Option ℕ := do
  let intKey := if storage.domain = .int32 then valueF64ToI32 key else 0
  let found ← setProbe env storage key intKey hash true
  found

/-- `none` when the query is refused before the probe, else the int32 key, 0 outside packed storage -/
def setQuery : Option (BitVec 32) :=
  if storage.domain = .int32 then int32Query key
  else if storage.domain = .string then if valueIsString key then some 0 else none
  else if setAcceptsQuery storage key then some 0 else none

def setLookupSlot : Option (Option ℕ) :=
  match setQuery storage key with
  | none => some none
  | some intKey => setProbe env storage key intKey (keyHashValue env key) false

def setSmallFind : Option ℕ :=
  (List.range storage.count).find? fun i => setIsLive storage i && setSmallKeyEquals env storage i key

def setSmallHas : Bool :=
  (List.range storage.count).any fun i => setIsLive storage i && setSmallKeyEquals env storage i key

def setStorageHas (storage : Option MalSetStorage) (key : MalValue) : Option Bool :=
  match storage with
  | none => some false
  | some storage =>
    if storage.size = 0 then some false
    else if storage.payload.isNone then some (setAcceptsQuery storage key && setSmallHas env storage key)
    else (setLookupSlot env storage key).map (·.isSome)

/-- the leaf probe of hashed int32 and identity storage; the outer `none` is an abort -/
def setProbeBits : Option (Option ℕ) :=
  if storage.domain = .int32 then
    match int32Query key with
    | none => some none
    | some intKey => setProbeIn env storage .int32 key intKey (keyHashMix key) false
  else if keyDomain key ≠ .identity then some none
  else setProbeIn env storage .identity key 0 (keyHashMix key) false

def setFindsBits : Bool :=
  storage.payload.isSome && (storage.domain = .int32 || storage.domain = .identity)

def setObjectHasCanonical (set : MalSetObject) (key : MalValue) : Option Bool :=
  match set.entries with
  | none => setStorageHas env set.entries key
  | some storage =>
    if setFindsBits storage then (setProbeBits env storage key).map (·.isSome)
    else setStorageHas env set.entries key

def setObjectHas (set : MalSetObject) (value : MalValue) : Option Bool :=
  setObjectHasCanonical env set (collectionCanonicalValue value)

/-! ## Growth -/

def setCapacity (required minimum : ℕ) : Option ℕ := collectionCapacity required minimum

def setSlotCapacity (members : ℕ) : Option ℕ := collectionSlotCapacity members

/-- the inline rows as packed rows; a dead row leaves its number uninitialised -/
def setPackSmall (fresh : MalSetPayload) : MalSetPayload :=
  { fresh with
    ints := fun i =>
      if i < storage.count ∧ storage.small i ≠ valueEmpty then valueF64ToI32 (storage.small i) else fresh.ints i
    controls := copyRows storage.count (fun i => if storage.small i = valueEmpty then 0 else setLive) fresh.controls }

def setUnpack (old fresh : MalSetPayload) : MalSetPayload :=
  { fresh with
    members := copyRows storage.count
      (fun i => if controlLive (old.controls i) then valueFromF64OfI32 (old.ints i) else valueEmpty) fresh.members }

def setReplacePayload (env : SetEnv) (storage : MalSetStorage) (domain : MalSetKeyDomain) (capacity : ℕ) :
    MalSetStorage :=
  let payload := match storage.payload with
    | some old =>
      if setRowWidth domain = setRowWidth storage.domain then
        if domain = .int32 then
          { env.fresh with
            ints := copyRows storage.count old.ints env.fresh.ints
            controls := copyRows storage.count old.controls env.fresh.controls }
        else { env.fresh with members := copyRows storage.count old.members env.fresh.members }
      -- the source reads the inline rows here: domains never narrow, so only inline storage gets here
      else if domain = .int32 then setPackSmall storage env.fresh
      else setUnpack storage old env.fresh
    | none =>
      if domain = .int32 then setPackSmall storage env.fresh
      else { env.fresh with members := copyRows storage.count storage.small env.fresh.members }
  { storage with payload := some payload, capacity := capacity, domain := domain }

def setFillSlots (slots : ℕ → ℕ) (capacity : ℕ) : Option MalSetStorage := do
  let index ← hashIndexFill (fun i => keyHashValue env (setKeyAt storage i)) (hashIndexReset slots capacity)
    ((List.range storage.count).filter (setIsLive storage))
  return { storage with index := index, deletedSlots := 0 }

def setRehash (env : SetEnv) (storage : MalSetStorage) (capacity : ℕ) : Option MalSetStorage :=
  setFillSlots env.toKeyEnv storage env.freshSlots capacity

/-! ## Compaction -/

/-- the row at `source` written to `target`, in the layout it has -/
def setMoveRow (source target : ℕ) : MalSetStorage :=
  match storage.payload with
  | none => { storage with small := update storage.small target (storage.small source) }
  | some payload =>
    { storage with
      payload := some (
        if storage.domain = .int32 then
          { payload with
            ints := update payload.ints target (payload.ints source)
            controls := update payload.controls target setLive }
        else { payload with members := update payload.members target (payload.members source) }) }

def setCompactRow (st : MalSetStorage × ℕ) (i : ℕ) : MalSetStorage × ℕ :=
  if setIsLive st.1 i then (setMoveRow st.1 i st.2, st.2 + 1) else st

def setCompactRows : MalSetStorage :=
  let (moved, count) := (List.range storage.count).foldl setCompactRow (storage, 0)
  { moved with count := count }

def setDemote : MalSetStorage :=
  { storage with
    payload := none
    index := { storage.index with capacity := 0 }
    small := if storage.payload.isSome then copyRows storage.count (setKeyAt storage) storage.small else storage.small
    capacity := setSmallCapacity
    deletedSlots := 0
    reserveSize := 0
    domain := if storage.count = 0 then .empty else storage.domain }

def setCompactFinish (env : SetEnv) (storage : MalSetStorage) : Option MalSetStorage :=
  if storage.count ≤ setSmallCapacity then some (setDemote storage)
  else do
    let capacity ← setCapacity storage.count 8
    let storage :=
      if capacity < storage.capacity then setReplacePayload env storage storage.domain capacity else storage
    let slots ← setSlotCapacity storage.count
    if slots ≠ storage.index.capacity then setRehash env storage slots
    else setFillSlots env.toKeyEnv storage storage.index.slots slots

def setCompact (env : SetEnv) (storage : MalSetStorage) : Option MalSetStorage :=
  if storage.pins ≠ 0 then some storage else setCompactFinish env (setCompactRows storage)

def setShouldCompact : Bool :=
  let dead := storage.count - storage.size
  decide (storage.pins = 0 ∧ dead ≠ 0 ∧
    (storage.size = 0 ∨ storage.payload.isNone = true ∨
      (dead ≥ 16 ∧ (dead ≥ storage.size ∨ (storage.count = storage.capacity ∧ dead ≥ storage.size / 4)))))

def setCompactIfDue (env : SetEnv) (storage : MalSetStorage) : Option MalSetStorage :=
  if setShouldCompact storage then setCompact env storage else some storage

/-! ## Insertion -/

def setStorageNew (env : SetEnv) : MalSetStorage where
  payload := none
  index := ⟨0, fun _ => hashEmpty, env.freshSlots⟩
  size := 0
  count := 0
  capacity := setSmallCapacity
  deletedSlots := 0
  pins := 0
  reserveSize := 0
  domain := .empty
  ownerReleased := false
  small := fun _ => 0

def setObjectStorage (env : SetEnv) (set : MalSetObject) : MalSetStorage := set.entries.getD (setStorageNew env)

def setAddSlot (accepts : Bool) : Option (Option ℕ) :=
  if storage.payload.isSome && accepts then (setFindSlot env storage key (keyHashValue env key)).map some
  else some none

def setAddPresent (accepts : Bool) (knownSlot : Option ℕ) : Bool :=
  match knownSlot with
  | some slot => hashSlotLive storage.index.controls slot
  | none => accepts && setSmallHas env storage key

def setInsertInline (domain : MalSetKeyDomain) : MalSetStorage :=
  { storage with
    small := update storage.small storage.count key
    domain := domain
    count := storage.count + 1
    size := storage.size + 1 }

def setGrowPayload (env : SetEnv) (storage : MalSetStorage) (domain : MalSetKeyDomain) : Option MalSetStorage := do
  let desired := storage.count + 1 +
    (if storage.reserveSize > storage.size then storage.reserveSize - storage.size - 1 else 0)
  let capacity ← setCapacity desired (if storage.payload.isNone then 8 else storage.capacity)
  return if storage.payload.isNone || capacity != storage.capacity ||
      setRowWidth domain != setRowWidth storage.domain then
    setReplacePayload env storage domain capacity
  else { storage with domain := domain }

def setGrowIndex (env : SetEnv) (storage : MalSetStorage) (knownSlot : Option ℕ) :
    Option (MalSetStorage × Option ℕ) :=
  let members := if storage.reserveSize > storage.size + 1 then storage.reserveSize else storage.size + 1
  let reusesDeleted := knownSlot.any fun slot => storage.index.controls slot == hashDeleted
  if storage.index.capacity = 0 ||
      !hashIndexFits (members + storage.deletedSlots - reusesDeleted.toNat) storage.index.capacity then do
    let slots ← setSlotCapacity members
    let storage ← setRehash env storage slots
    return (storage, none)
  else some (storage, knownSlot)

def setInsertSlot (hash : BitVec 64) (knownSlot : Option ℕ) : Option ℕ :=
  match knownSlot with
  | some slot => some slot
  | none => setFindSlot env storage key hash

def setAppendRow (slot : ℕ) (hash : BitVec 64) : MalSetStorage :=
  let index := storage.count
  let stored := setStoreKey storage index key
  { stored with
    count := storage.count + 1
    deletedSlots := storage.deletedSlots - (storage.index.controls slot == hashDeleted).toNat
    index := hashIndexInsert storage.index slot index hash
    reserveSize := 0
    size := storage.size + 1 }

def setInsertHashed (env : SetEnv) (storage : MalSetStorage) (key : MalValue) (domain : MalSetKeyDomain)
    (knownSlot : Option ℕ) : Option MalSetStorage := do
  let storage ← setGrowPayload env storage domain
  let (storage, knownSlot) ← setGrowIndex env storage knownSlot
  let hash := keyHashValue env.toKeyEnv key
  let slot ← setInsertSlot env.toKeyEnv storage key hash knownSlot
  return setAppendRow storage key slot hash

def setAddNew (env : SetEnv) (storage : MalSetStorage) (key : MalValue) (knownSlot : Option ℕ) :
    Option MalSetStorage :=
  let domain := joinDomain storage.domain (insertDomain storage.domain key)
  if storage.payload.isNone && storage.count < setSmallCapacity then some (setInsertInline storage key domain)
  else setInsertHashed env storage key domain knownSlot

def setObjectAddGeneral (env : SetEnv) (set : MalSetObject) (key : MalValue) : Option MalSetObject := do
  let storage ← setCompactIfDue env (setObjectStorage env set)
  let accepts := acceptsDomain storage.domain (insertDomain storage.domain key)
  let knownSlot ← setAddSlot env.toKeyEnv storage key accepts
  if setAddPresent env.toKeyEnv storage key accepts knownSlot then return ⟨some storage⟩
  else
    let added ← setAddNew env storage key knownSlot
    return ⟨some added⟩

/-- the leaf probe of an add: `some none` sends it to the general path -/
def setAddBits (set : MalSetObject) (key : MalValue) : Option (Option ℕ) :=
  match set.entries with
  | none => some none
  | some storage => if setFindsBits storage then setProbeBits env storage key else some none

def setObjectAddCanonical (env : SetEnv) (set : MalSetObject) (key : MalValue) : Option MalSetObject := do
  let slot ← setAddBits env.toKeyEnv set key
  if slot.isSome then return set else setObjectAddGeneral env set key

def setObjectAdd (env : SetEnv) (set : MalSetObject) (value : MalValue) : Option MalSetObject :=
  setObjectAddCanonical env set (collectionCanonicalValue value)

/-! ## Deletion and clear -/

def setReleaseSlot (slot : ℕ) : MalSetStorage :=
  let (index, deleted) := hashIndexErase storage.index slot
  { storage with index := index, deletedSlots := storage.deletedSlots + deleted.toNat }

/-- the row found by a delete, and the storage with its bucket released; `none` when there is no such row -/
def setDeleteFind : Option (Option (MalSetStorage × ℕ)) :=
  if storage.payload.isNone then
    if setAcceptsQuery storage key then some ((setSmallFind env storage key).map (storage, ·)) else some none
  else (setLookupSlot env storage key).map fun slot =>
    slot.map fun slot => (setReleaseSlot storage slot, storage.index.slots slot)

end

def setDeleteRow (storage : MalSetStorage) (index : ℕ) : MalSetStorage :=
  let storage := setMarkDeleted storage index
  { storage with size := storage.size - 1 }

def setObjectDeleteCanonical (env : SetEnv) (set : MalSetObject) (key : MalValue) : Option (MalSetObject × Bool) :=
  match set.entries with
  | none => some (set, false)
  | some storage =>
    if storage.size = 0 then some (set, false)
    else do
      let found ← setDeleteFind env.toKeyEnv storage key
      match found with
      | none => return (set, false)
      | some (storage, index) =>
        let storage ← setCompactIfDue env (setDeleteRow storage index)
        return (⟨some storage⟩, true)

def setObjectDelete (env : SetEnv) (set : MalSetObject) (value : MalValue) : Option (MalSetObject × Bool) :=
  setObjectDeleteCanonical env set (collectionCanonicalValue value)

def setObjectSize (set : MalSetObject) : ℕ := set.entries.elim 0 fun storage => storage.size

def setClearPayload (storage : MalSetStorage) : MalSetStorage :=
  match storage.payload with
  | none => { storage with small := copyRows storage.count (fun _ => valueEmpty) storage.small }
  | some payload =>
    { storage with
      payload := some (
        if storage.domain = .int32 then { payload with controls := copyRows storage.count (fun _ => 0) payload.controls }
        else { payload with members := copyRows storage.count (fun _ => valueEmpty) payload.members }) }

def setClearRows (storage : MalSetStorage) : MalSetStorage :=
  { setClearPayload storage with
    size := 0
    index := if storage.index.capacity ≠ 0 then hashIndexReset storage.index.slots storage.index.capacity
      else storage.index
    deletedSlots := 0 }

def setObjectClear (env : SetEnv) (set : MalSetObject) : Option MalSetObject :=
  match set.entries with
  | none => some set
  | some storage => (setCompactIfDue env (setClearRows storage)).map fun storage => ⟨some storage⟩

/-! ## Reserve, pins and compaction on request -/

def setObjectReserve (env : SetEnv) (set : MalSetObject) (desiredSize : ℕ) : Option (MalSetObject × Bool) :=
  match setCapacity desiredSize 8, setSlotCapacity desiredSize with
  | some _, some slots =>
    if desiredSize ≤ setObjectSize set then some (set, true)
    else
      let storage := setObjectStorage env set
      if storage.payload.isNone then
        some (⟨some { storage with reserveSize := max storage.reserveSize desiredSize }⟩, true)
      else
        match setCapacity (storage.count + desiredSize - storage.size) storage.capacity with
        | none => some (⟨some storage⟩, false)
        | some capacity =>
          let storage :=
            if capacity > storage.capacity then setReplacePayload env storage storage.domain capacity else storage
          if slots > storage.index.capacity then
            (setRehash env storage slots).map fun storage => (⟨some storage⟩, true)
          else some (⟨some storage⟩, true)
  | _, _ => some (set, false)

def setStoragePin (set : MalSetObject) : Option MalSetObject :=
  match set.entries with
  | none => some set
  | some storage => if storage.pins = uint32Max then none else some ⟨some { storage with pins := storage.pins + 1 }⟩

def setStorageUnpin (set : MalSetObject) : Option MalSetObject :=
  match set.entries with
  | none => some set
  | some storage =>
    if storage.pins = 0 then some set
    else
      let storage := { storage with pins := storage.pins - 1 }
      if storage.pins = 0 ∧ storage.ownerReleased = true then none else some ⟨some storage⟩

def setObjectCompact (env : SetEnv) (set : MalSetObject) : Option MalSetObject :=
  match set.entries with
  | none => some set
  | some storage => (setCompactIfDue env storage).map fun storage => ⟨some storage⟩

/-! ## Iteration -/

/-- the scan of `mal_set_iter_next` over the `fuel` positions from `index` on: the member it yields and the new index -/
def setIterScan (storage : MalSetStorage) : ℕ → ℕ → Option MalValue × ℕ
  | 0, index => (none, index)
  | fuel + 1, index =>
    if setIsLive storage index then (some (setKeyAt storage index), index + 1)
    else setIterScan storage fuel (index + 1)

def setIterNext (storage : Option MalSetStorage) (index : ℕ) : Option MalValue × ℕ :=
  match storage with
  | none => (none, index)
  | some storage => setIterScan storage (storage.count - index) index

/-- the members a cursor yields from `index` on when nothing else happens -/
def setIterAll (storage : Option MalSetStorage) : ℕ → ℕ → List MalValue
  | 0, _ => []
  | fuel + 1, index =>
    match setIterNext storage index with
    | (none, _) => []
    | (some member, next) => member :: setIterAll storage fuel next

end Maligator.SetObject
