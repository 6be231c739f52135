/-
Model of the property table (`table.c`).

The rows are kept in insertion order with dead rows between them; a table of more than four rows has a grouped index over
the live ones. The entries and the buckets are total functions of which only those below `entryCount` and the index
capacity are ever read; fresh allocations hold arbitrary rows and buckets (`TableEnv`). An entry handle is modelled by the
position it stands for, one less than the pointer.

A search of an indexed table hashes its key, which fills in the hash cache of a string key: the string memory is passed
through. The rebuilds hash stored keys only, whose hashes are cached since their insertion (`TableInv.cached`). `none` is an
abort. Barriers and counters have no effect on the contents and are left out.
-/
import Maligator.Capacity
import Maligator.Table.Word

namespace Maligator.Table

open HashIndex Function

/-! ## Data -/

def tableSmallMinCapacity : ℕ := 4

structure MalTable where
  handleEpoch : BitVec 64
  size : ℕ
  tombstoneCount : ℕ
  deletedSlots : ℕ
  entryCount : ℕ
  entryCapacity : ℕ
  iteratorPins : ℕ
  /-- the slots with their controls and `slot_capacity` -/
  index : MalHashIndex ℕ
  entries : ℕ → MalTableEntry

/-- the hash of code units, and what a fresh allocation happens to hold -/
structure TableEnv where
  contentHash : List ℕ → BitVec 64
  freshEntries : ℕ → MalTableEntry
  freshSlots : ℕ → ℕ

section

variable (env : TableEnv) (memory : StringMemory) (table : MalTable)

def tableNew : MalTable where
  handleEpoch := 1
  size := 0
  tombstoneCount := 0
  deletedSlots := 0
  entryCount := 0
  entryCapacity := 0
  iteratorPins := 0
  index := ⟨0, fun _ => hashEmpty, env.freshSlots⟩
  entries := env.freshEntries

/-! ## Searches -/

def linearFind (key : BitVec 64) : Option ℕ :=
  (List.range table.entryCount).find? fun i =>
    rowLive (table.entries i) && keyEquals memory (table.entries i) key false

def probeHit (key hash : BitVec 64) (index : ℕ) : Bool :=
  (table.entries index).key &&& hashMask == hashFingerprint hash && keyEquals memory (table.entries index) key true

def findSlot (key hash : BitVec 64) : Option ℕ :=
  if table.index.capacity = 0 then some ((linearFind memory table key).getD table.entryCount)
  else do
    let found ← hashSearch table.index.controls table.index.capacity hash
      (fun slot => probeHit memory table key hash (table.index.slots slot)) true
    found

/-- `some none` is MAL_TABLE_EMPTY -/
def lookupEntry (key hash : BitVec 64) : Option (Option ℕ) :=
  if table.index.capacity = 0 then some (linearFind memory table key)
  else do
    let found ← hashSearch table.index.controls table.index.capacity hash
      (fun slot => probeHit memory table key hash (table.index.slots slot)) false
    return found.map table.index.slots

def slotEntry (slot : ℕ) : Option ℕ :=
  if table.index.capacity = 0 then if slot < table.entryCount then some slot else none
  else if hashSlotLive table.index.controls slot then some (table.index.slots slot) else none

def searchHash (key : BitVec 64) : StringMemory × BitVec 64 :=
  if table.index.capacity = 0 then (memory, 0) else keyHash env.contentHash memory key

/-- the row whose position is the index asked for, when that is its key -/
def directProbe (key : BitVec 64) : Option ℕ :=
  let index := (key.setWidth 32).toNat
  if index < table.entryCount ∧ rowLive (table.entries index) = true ∧
      (table.entries index).key &&& identityMask = key then some index
  else none

/-- the entry handle, `some none` when the key is absent -/
def tableLookup (key : MalKey) : Option (StringMemory × Option ℕ) := do
  let encoded ← encodeKey key
  if table.size = 0 then return (memory, none)
  match if key.kind = .index then directProbe table encoded else none with
  | some entry => return (memory, some entry)
  | none =>
    let hashed := searchHash env memory table encoded
    let entry ← lookupEntry hashed.1 table encoded hashed.2
    return (hashed.1, entry)

/-! ## Growth -/

def allocateStorage : MalTable :=
  if table.entryCapacity ≠ 0 then table
  else { table with entries := env.freshEntries, entryCapacity := tableSmallMinCapacity }

def fillSlots (slots : ℕ → ℕ) (capacity : ℕ) : Option MalTable :=
  if capacity = 0 then some { table with deletedSlots := 0, index := { table.index with capacity := 0 } }
  else do
    let index ← hashIndexFill (fun e => (keyHash env.contentHash memory (table.entries e).key).2)
      (hashIndexReset slots capacity) ((List.range table.entryCount).filter fun e => rowLive (table.entries e))
    return { table with deletedSlots := 0, index := index }

def rehash (capacity : ℕ) : Option MalTable :=
  fillSlots env memory table env.freshSlots capacity

/-- the capacity of an index that has no room: one group at first, doubled when tombstones are not to blame -/
def grownSlotCapacity : Option ℕ :=
  let capacity := if table.index.capacity = 0 then hashGroupWidth else table.index.capacity
  if hashIndexFits (table.size + 1) capacity then some capacity
  else if capacity > int32Max / 2 then none
  else some (capacity * 2)

/-- the index is built or rebuilt for one more row when it has no room; the flag says whether it was -/
def growSlotsIfNeeded (reusesDeleted : Bool) : Option (MalTable × Bool) :=
  if table.index.capacity = 0 ∧ table.entryCount < tableSmallMinCapacity then some (table, false)
  else if table.index.capacity ≠ 0 ∧
      hashIndexFits (table.size + table.deletedSlots + 1 - reusesDeleted.toNat) table.index.capacity = true then
    some (table, false)
  else do
    let capacity ← grownSlotCapacity table
    let table ← rehash env memory table capacity
    return (table, true)

def reallocEntries (capacity : ℕ) : MalTable :=
  { table with
    entries := copyRows table.entryCount table.entries env.freshEntries
    entryCapacity := capacity }

def growEntriesIfNeeded : Option MalTable :=
  if table.entryCount < table.entryCapacity then some table
  else if table.entryCapacity > int32Max / 2 then none
  else some (reallocEntries env table (table.entryCapacity * 2))

/-- the flag is false when the capacity cannot be represented -/
def tableReserve (desiredSize : ℕ) : Option (MalTable × Bool) :=
  if desiredSize ≤ table.size then some (table, true)
  else if desiredSize > int32Max - 1 then some (table, false)
  else
    let requiredEntries := table.entryCount + (desiredSize - table.size)
    match growCapacity (fun capacity => decide (requiredEntries ≤ capacity)) 32 tableSmallMinCapacity,
        if requiredEntries ≤ tableSmallMinCapacity then some 0 else collectionSlotCapacity desiredSize with
    | some targetEntries, some targetSlots => do
      let table := if targetEntries > table.entryCapacity then reallocEntries env table targetEntries else table
      let table ← if targetSlots > table.index.capacity then rehash env memory table targetSlots else some table
      return (table, true)
    | _, _ => some (table, false)

/-! ## Insertion -/

def appendRow (key hash : BitVec 64) : MalTable :=
  { table with
    entryCount := table.entryCount + 1
    entries := update table.entries table.entryCount ⟨key ||| hashFingerprint hash, valueUndefined⟩ }

def insertSlot (slot entry : ℕ) (hash : BitVec 64) : MalTable :=
  if table.index.capacity = 0 then table
  else
    { table with
      deletedSlots := table.deletedSlots - (table.index.controls slot == hashDeleted).toNat
      index := hashIndexInsert table.index slot entry hash }

/-- the part of `mal_table_upsert_entry` after its search has missed -/
def insertEntry (encoded : BitVec 64) (slot : ℕ) (hash : BitVec 64) : Option (StringMemory × MalTable) := do
  let table ← growEntriesIfNeeded env table
  let reusesDeleted := table.index.capacity ≠ 0 && table.index.controls slot == hashDeleted
  let grown ← growSlotsIfNeeded env memory table reusesDeleted
  let table := grown.1
  -- a rebuild loses the bucket, and a linear table has computed no hash yet
  let hashed := if grown.2 ∨ table.index.capacity = 0 then keyHash env.contentHash memory encoded else (memory, hash)
  let slot ← if grown.2 then findSlot hashed.1 table encoded hashed.2 else some slot
  let entry := table.entryCount
  let table := insertSlot (appendRow table encoded hashed.2) slot entry hashed.2
  return (hashed.1, { table with size := table.size + 1 })

def tableUpsertEntry (key : MalKey) : Option (StringMemory × MalTable × ℕ × Bool) := do
  let encoded ← encodeKey key
  let table := allocateStorage env table
  let hashed := searchHash env memory table encoded
  let slot ← findSlot hashed.1 table encoded hashed.2
  match slotEntry table slot with
  | some entry => return (hashed.1, table, entry, false)
  | none => do
    let inserted ← insertEntry env hashed.1 table encoded slot hashed.2
    return (inserted.1, inserted.2, inserted.2.entryCount - 1, true)

/-! ## Deletion -/

/-- ownership survives deletion -/
def killRow (entry : MalTableEntry) : MalTableEntry := { entry with key := entry.key &&& ~~~kindMask }

def eraseSlot (slot : ℕ) : MalTable :=
  if table.index.capacity = 0 then table
  else
    { table with
      deletedSlots := table.deletedSlots + (hashIndexErase table.index slot).2.toNat
      index := (hashIndexErase table.index slot).1 }

def deleteEntry (slot entry : ℕ) : MalTable :=
  eraseSlot
    { table with
      entries := update table.entries entry (killRow (table.entries entry))
      size := table.size - 1
      tombstoneCount := table.tombstoneCount + 1 } slot

def tableDelete (key : MalKey) : Option (StringMemory × MalTable × Bool) := do
  let encoded ← encodeKey key
  if table.size = 0 then return (memory, table, false)
  let hashed := searchHash env memory table encoded
  let slot ← findSlot hashed.1 table encoded hashed.2
  match slotEntry table slot with
  | none => return (hashed.1, table, false)
  | some entry => return (hashed.1, deleteEntry table slot entry, true)

/-! ## Compaction -/

def compactRow (st : (ℕ → MalTableEntry) × ℕ) (i : ℕ) : (ℕ → MalTableEntry) × ℕ :=
  if rowLive (st.1 i) then (if st.2 ≠ i then update st.1 st.2 (st.1 i) else st.1, st.2 + 1) else st

/-- double without a limit; the fuel is more than the doublings below 2^32 -/
def doubleUntil (enough : ℕ → Bool) : ℕ → ℕ → ℕ
  | 0, capacity => capacity
  | fuel + 1, capacity => if enough capacity then capacity else doubleUntil enough fuel (capacity * 2)

def nextEpoch (epoch : BitVec 64) : BitVec 64 := if epoch + 1 = 0 then 1 else epoch + 1

def packRows : MalTable :=
  let packed := (List.range table.entryCount).foldl compactRow (table.entries, 0)
  { table with
    entries := packed.1
    entryCount := packed.2
    tombstoneCount := 0
    handleEpoch := nextEpoch table.handleEpoch }

def releaseStorage : MalTable :=
  { table with index := { table.index with capacity := 0 }, deletedSlots := 0, entryCapacity := 0 }

def shrinkEntries : MalTable :=
  let targetEntries := doubleUntil (fun capacity => decide (table.size ≤ capacity)) 32 tableSmallMinCapacity
  if targetEntries < table.entryCapacity then reallocEntries env table targetEntries else table

def tableCompact : Option MalTable :=
  if table.iteratorPins ≠ 0 ∨ table.tombstoneCount = 0 then some table
  else
    let table := packRows table
    if table.size = 0 then some (releaseStorage table)
    else
      let table := shrinkEntries env table
      let targetSlots := if table.size ≤ tableSmallMinCapacity then 0
        else doubleUntil (hashIndexFits table.size) 32 hashGroupWidth
      rehash env memory table targetSlots

/-! ## Clearing and filtering -/

/-- the live rows that `reject` picks are marked dead, wherever they are -/
def killRows (reject : MalTableEntry → Bool) : ℕ → MalTableEntry := fun e =>
  if e < table.entryCount ∧ rowLive (table.entries e) = true ∧ reject (table.entries e) = true then
    killRow (table.entries e)
  else table.entries e

def clearRows : MalTable :=
  { table with
    entries := killRows table fun _ => true
    tombstoneCount := table.tombstoneCount +
      ((List.range table.entryCount).filter fun e => rowLive (table.entries e)).length
    size := 0
    index := if table.index.capacity = 0 then table.index else hashIndexReset table.index.slots table.index.capacity
    deletedSlots := 0 }

def tableClear : Option MalTable :=
  if table.size = 0 then
    if table.iteratorPins = 0 ∧ table.tombstoneCount ≠ 0 then tableCompact env memory table else some table
  else
    let table := clearRows table
    if table.iteratorPins = 0 then tableCompact env memory table else some table

section

variable (keep : MalValue → Bool) (entry : ℕ)

def rejectedRows : List ℕ :=
  (List.range table.entryCount).filter fun e => rowLive (table.entries e) && !keep (keyValue (table.entries e).key)

/-- the rejected rows dead; their buckets are dealt with by a rebuild -/
def rejectRows (removed : ℕ) : MalTable :=
  { table with
    entries := killRows table fun entry => !keep (keyValue entry.key)
    size := table.size - removed
    tombstoneCount := table.tombstoneCount + removed }

def deleteKeys (env : TableEnv) : List MalValue → StringMemory → MalTable → Option (StringMemory × MalTable)
  | [], memory, table => some (memory, table)
  | value :: values, memory, table => do
    let deleted ← tableDelete env memory table (keyFromValue value)
    deleteKeys env values deleted.1 deleted.2.1

def deleteRejected (env : TableEnv) (keep : MalValue → Bool) :
    List ℕ → StringMemory → MalTable → Option (StringMemory × MalTable)
  | [], memory, table => some (memory, table)
  | e :: es, memory, table =>
    if !rowLive (table.entries e) || keep (keyValue (table.entries e).key) then deleteRejected env keep es memory table
    else do
      let deleted ← tableDelete env memory table (decodeKey (table.entries e).key)
      deleteRejected env keep es deleted.1 deleted.2.1

/-- few rows are removed one by one; sixteen keys are remembered -/
def deleteFew (rejected : List MalValue) : Option (StringMemory × MalTable) :=
  if rejected.length ≤ 16 then deleteKeys env (rejected.take 16) memory table
  else deleteRejected env keep (List.range table.entryCount) memory table

/-- the number of removed rows comes last -/
def tableRetain : Option (StringMemory × MalTable × ℕ) := do
  let rejected := (rejectedRows table keep).map fun e => keyValue (table.entries e).key
  let removed := rejected.length
  if removed = 0 then return (memory, table, 0)
  else if removed = table.size then do
    let table ← tableClear env memory table
    return (memory, table, removed)
  else if removed < 16 ∨ removed < (table.size - removed) / 4 then do
    let filtered ← deleteFew env memory table keep rejected
    return (filtered.1, filtered.2, removed)
  else do
    let table := rejectRows table keep removed
    let table ← fillSlots env memory table table.index.slots table.index.capacity
    return (memory, table, removed)

/-! ## Entry writes, pins and iteration -/

def tablePin : MalTable := { table with iteratorPins := table.iteratorPins + 1 }

def tableUnpin : MalTable := { table with iteratorPins := table.iteratorPins - 1 }

def updateEntry (row : MalTableEntry) : MalTable :=
  { table with entries := update table.entries entry row }

/-- data 0 is the null pointer -/
def entrySetOwnedData (data : BitVec 64) : MalTable :=
  let target := table.entries entry
  updateEntry table entry
    (if data ≠ 0 then ⟨target.key ||| ownsData, data⟩ else ⟨target.key &&& ~~~ownsData, valueUndefined⟩)

def entrySetPropertyFlags (flags : BitVec 8) : Option MalTable :=
  if flags &&& ~~~0x7f#8 ≠ 0 then none
  else
    let target := table.entries entry
    some (updateEntry table entry
      { target with key := (target.key &&& ~~~flagsMask) ||| (flags.setWidth 64 <<< 50) })

def entrySetValue (value : MalValue) : MalTable :=
  updateEntry table entry { table.entries entry with payload := value }

end

end

def entryPropertyFlags (row : MalTableEntry) : BitVec 8 := ((row.key &&& flagsMask) >>> 50).setWidth 8

/-- `mal_table_iter_next` until it returns false -/
def iterNext (table : MalTable) : ℕ → ℕ → Option (MalKey × ℕ) × ℕ
  | 0, index => (none, index)
  | fuel + 1, index =>
    if index < table.entryCount then
      if rowLive (table.entries index) then (some (decodeKey (table.entries index).key, index), index + 1)
      else iterNext table fuel (index + 1)
    else (none, index)

def iterate (table : MalTable) : ℕ → ℕ → List (MalKey × ℕ)
  | 0, _ => []
  | fuel + 1, index =>
    match iterNext table (table.entryCount + 1) index with
    | (none, _) => []
    | (some yielded, index) => yielded :: iterate table fuel index

end Maligator.Table
