/-
Transferring ArrayBuffers with a structured clone: serialize.c and the stores of array_buffer_object.c.

A snapshot is encoded while the sender's getters run, validated, committed (which steals the stores of the listed buffers and
detaches them), decoded by the receiver with or without adopting its stores, and released. mal_serialize is cut at the points
where user code can run: `beginSerialize` checks the transfer list, each `encode` is one object reached by enc_value, and
`finishSerialize` adds the listed buffers the graph did not reach and validates; any other operation may come in between,
those of a nested serialization included. What enc_value and dec_value do with values that own no store is left out.

A store is a number; `released` are the stores whose owner gave them up. A store lease moves with its store.
The answers of the host's hooks come with each operation. Allocation failure and limits are `encodeFails`.
-/
import Mathlib.Data.List.Basic

namespace Maligator.Transfer

/-! ## ArrayBuffers -/

structure ArrayBuffer where
  data : Option ℕ
  storeLease : Option ℕ
  byteLength : ℕ
  maxByteLength : ℕ
  allocationCapacity : ℕ
  resizable : Bool
  detached : Bool
  shared : Bool
  immutable : Bool
  sensitive : Bool
  pins : ℕ
  deriving DecidableEq, Repr

def ArrayBuffer.isPinned (b : ArrayBuffer) : Bool := b.pins != 0

/-- a wrapper whose store is gone: the end of mal_array_buffer_object_detach -/
def ArrayBuffer.detach (b : ArrayBuffer) : ArrayBuffer :=
  { b with data := none, storeLease := none, byteLength := 0, allocationCapacity := 0, detached := true }

/-- mal_array_buffer_object_new_uninitialized: a wrapper over the store `data` -/
def newArrayBuffer (data : Option ℕ) (byteLength maxByteLength : ℕ) (resizable : Bool) : ArrayBuffer where
  data := data
  storeLease := none
  byteLength := byteLength
  maxByteLength := if resizable then maxByteLength else byteLength
  allocationCapacity := if resizable then maxByteLength else byteLength
  resizable := resizable
  detached := false
  shared := false
  immutable := false
  sensitive := false
  pins := 0

/-! ## Snapshots -/

/-- an object the codec treats specially: an ArrayBuffer of the sender or a host object -/
inductive Transferable where
  | buffer (b : ℕ)
  | host (object : ℕ)
  deriving DecidableEq, Repr

inductive SerResourceKind where
  | buffer
  | shared
  | host
  deriving DecidableEq, Repr

structure SerResource where
  kind : SerResourceKind
  sensitive : Bool
  transfer : Bool
  resizable : Bool
  data : Option ℕ
  length : ℕ
  maxLength : ℕ
  capacity : ℕ
  storeLease : Option ℕ
  /-- the host descriptor -/
  host : ℕ
  deriving DecidableEq, Repr

/-- one position of transfer_sources and transfer_resources -/
structure TransferEntry where
  item : Transferable
  resource : Option ℕ
  deriving DecidableEq, Repr

structure MalSerializedValue where
  resources : List SerResource
  transfers : List TransferEntry
  committed : Bool
  consumed : Bool
  abortError : Option String
  /-- the memo, while mal_serialize has not returned -/
  encoding : Option (List Transferable)
  deriving DecidableEq, Repr

/-- what the hooks answer during one call -/
structure Hooks where
  /-- hooks->encode exists -/
  hasEncode : Bool
  untransferable : Transferable → Bool
  reject : Transferable → Bool
  encode : ℕ → Bool
  validate : ℕ → Bool

/-- the sender's buffers, all snapshots (none: released), the receiver's buffers -/
structure State where
  buffers : List ArrayBuffer
  snapshots : List (Option MalSerializedValue)
  received : List ArrayBuffer
  released : List ℕ
  nextStore : ℕ

/-! ## mal_serialize -/

inductive TransferList where
  | undefined
  | notArray
  /-- none is a hole -/
  | items (list : List (Option Transferable))
  deriving DecidableEq, Repr

def validateItems (hooks : Hooks) (buffers : List ArrayBuffer) : List Transferable → List (Option Transferable) →
    Except String (List Transferable)
  | seen, [] => .ok seen
  | _, none :: _ => .error "transfer list item is not transferable"
  | seen, some item :: rest =>
    if item ∈ seen then .error "duplicate transferable"
    else if hooks.untransferable item then .error "Cannot transfer object of unsupported type."
    else
      match item with
      | .buffer b =>
        match buffers[b]? with
        | none => .error "transfer list item is not transferable"
        | some buffer =>
          if buffer.detached || buffer.shared || buffer.immutable || buffer.isPinned then
            .error "ArrayBuffer cannot be transferred"
          else validateItems hooks buffers (seen ++ [item]) rest
      | .host _ =>
        if !hooks.hasEncode then .error "transfer list item is not transferable"
        else validateItems hooks buffers (seen ++ [item]) rest

def encValidateTransfers (hooks : Hooks) (buffers : List ArrayBuffer) : TransferList → Except String (List Transferable)
  | .undefined => .ok []
  | .notArray => .error "transfer list must be an array"
  | .items list => validateItems hooks buffers [] list

def addResource (s : MalSerializedValue) (resource : SerResource) : MalSerializedValue :=
  { s with resources := s.resources ++ [resource] }

def placeResource (s : MalSerializedValue) (item : Transferable) (resource : SerResource) : MalSerializedValue :=
  { addResource s resource with
    transfers := s.transfers.map fun e => if e.item = item then { e with resource := some s.resources.length } else e }

def memoize (s : MalSerializedValue) (v : Transferable) : MalSerializedValue :=
  { s with encoding := s.encoding.map fun memo => v :: memo }

def bufferResource (buffer : ArrayBuffer) (transfer : Bool) (data : Option ℕ) (capacity : ℕ) : SerResource where
  kind := .buffer
  sensitive := buffer.sensitive
  transfer := transfer
  resizable := buffer.resizable
  data := data
  length := buffer.byteLength
  maxLength := buffer.maxByteLength
  capacity := capacity
  storeLease := none
  host := 0

def hostResource (descriptor : ℕ) (transfer : Bool) : SerResource where
  kind := .host
  sensitive := false
  transfer := transfer
  resizable := false
  data := none
  length := 0
  maxLength := 0
  capacity := 0
  storeLease := none
  host := descriptor

/-- a shared backing is retained, not owned -/
def sharedResource : SerResource := { hostResource 0 false with kind := .shared }

def isListed (s : MalSerializedValue) (v : Transferable) : Bool := s.transfers.any (·.item = v)

/-- enc_array_buffer; a copy takes the store `nextStore` -/
def encArrayBuffer (nextStore : ℕ) (s : MalSerializedValue) (b : ℕ) (buffer : ArrayBuffer) :
    Except String (MalSerializedValue × ℕ) :=
  if buffer.shared then .ok (addResource s sharedResource, nextStore)
  else if buffer.detached then .error "a detached ArrayBuffer cannot be cloned"
  else if isListed s (.buffer b) then
    .ok (placeResource s (.buffer b) (bufferResource buffer true none buffer.allocationCapacity), nextStore)
  else if buffer.byteLength > 0 then
    .ok (addResource s (bufferResource buffer false (some nextStore) buffer.byteLength), nextStore + 1)
  else .ok (addResource s (bufferResource buffer false none 0), nextStore)

def encValue (hooks : Hooks) (st : State) (s : MalSerializedValue) (memo : List Transferable) (v : Transferable) :
    Except String (MalSerializedValue × ℕ) :=
  if v ∈ memo then .ok (s, st.nextStore)
  else if hooks.reject v then .error "an object marked as uncloneable cannot be cloned"
  else
    match v with
    | .buffer b =>
      match st.buffers[b]? with
      | some buffer => (encArrayBuffer st.nextStore s b buffer).map fun r => (memoize r.1 v, r.2)
      | none => .error "value cannot be cloned"
    | .host object =>
      if hooks.encode object then
        if isListed s v then .ok (memoize (placeResource s v (hostResource object true)) v, st.nextStore)
        else .ok (memoize (addResource s (hostResource object false)) v, st.nextStore)
      else .error "value cannot be cloned"

/-- the loop of mal_serialize over the listed items that the graph did not reach -/
def fillTransfers (hooks : Hooks) (buffers : List ArrayBuffer) : List Transferable → MalSerializedValue →
    Except String MalSerializedValue
  | [], s => .ok s
  | v :: rest, s =>
    if s.transfers.any (fun e => e.item = v && e.resource.isSome) then fillTransfers hooks buffers rest s
    else
      match v with
      | .buffer b =>
        match buffers[b]? with
        | some buffer =>
          fillTransfers hooks buffers rest (placeResource s v (bufferResource buffer true none buffer.allocationCapacity))
        | none => .error "out of memory while serializing"
      | .host object =>
        if hooks.reject v then .error "an object marked as uncloneable cannot be transferred"
        else if !hooks.encode object then .error "transfer list item is not transferable"
        else fillTransfers hooks buffers rest (placeResource s v (hostResource object true))

/-! ## mal_serialized_value_validate, mal_serialize_commit -/

/-- one round of the source loop of mal_serialized_value_validate -/
def sourceOk (buffers : List ArrayBuffer) (resources : List SerResource) (e : TransferEntry) : Bool :=
  match e.item with
  | .host _ => true
  | .buffer b =>
    match buffers[b]?, e.resource.bind (resources[·]?) with
    | some source, some resource =>
      !(source.detached || source.immutable || source.isPinned || resource.capacity != source.allocationCapacity)
    | _, _ => false

/-- mal_serialized_value_validate: the error, if any -/
def serializedValueValidate (hooks : Hooks) (buffers : List ArrayBuffer) (s : MalSerializedValue) : Option String :=
  if s.committed then none
  else
    match s.abortError with
    | some error => some error
    | none =>
      if !s.transfers.all (sourceOk buffers s.resources) then some "a transferred ArrayBuffer was detached during serialization"
      else if s.resources.any (fun r => r.kind = .host && r.transfer && !hooks.validate r.host) then
        some "a transferred object was closed or transferred during serialization"
      else none

def stolen (transfers : List TransferEntry) : List (ℕ × ℕ) :=
  transfers.filterMap fun e =>
    match e.item, e.resource with
    | .buffer b, some i => some (b, i)
    | _, _ => none

/-- the store moves to the resource and the source is detached -/
def steal (acc : List ArrayBuffer × List SerResource) (pair : ℕ × ℕ) : List ArrayBuffer × List SerResource :=
  match acc.1[pair.1]?, acc.2[pair.2]? with
  | some source, some resource =>
    (acc.1.set pair.1 { source.detach with sensitive := false },
      acc.2.set pair.2 { resource with
        data := source.data, storeLease := source.storeLease, length := source.byteLength, sensitive := source.sensitive })
  | _, _ => acc

/-- mal_serialize_commit; the hooks' own commits touch no buffer -/
def serializeCommit (hooks : Hooks) (st : State) (id : ℕ) (s : MalSerializedValue) : State × Bool :=
  if s.committed then (st, true)
  else
    match serializedValueValidate hooks st.buffers s with
    | some error =>
      match s.abortError with
      | some _ => (st, false)
      | none => ({ st with snapshots := st.snapshots.set id (some { s with abortError := some error }) }, false)
    | none =>
      let (buffers, resources) := (stolen s.transfers).foldl steal (st.buffers, s.resources)
      ({ st with buffers := buffers, snapshots := st.snapshots.set id (some { s with resources := resources, committed := true }) },
        true)

/-! ## mal_deserialize, mal_serialized_value_release -/

/-- dec_buffer: the receiver's buffer, what is left of the resource and the next store -/
def decBuffer (take : Bool) (nextStore : ℕ) (resource : SerResource) : Option (ArrayBuffer × SerResource × ℕ) :=
  let maxLength := if resource.resizable then resource.maxLength else resource.length
  if maxLength < resource.length || (resource.transfer && maxLength > resource.capacity) then none
  else if resource.length > resource.capacity || (resource.capacity > 0 && resource.data.isNone) then none
  else if take && maxLength ≤ resource.capacity then
    some ({ newArrayBuffer resource.data 0 0 false with
        storeLease := resource.storeLease, byteLength := resource.length, maxByteLength := maxLength,
        allocationCapacity := resource.capacity, resizable := resource.resizable, sensitive := resource.sensitive },
      { resource with data := none, storeLease := none }, nextStore)
  else if maxLength > 0 then
    some ({ newArrayBuffer (some nextStore) resource.length maxLength resource.resizable with sensitive := resource.sensitive },
      resource, nextStore + 1)
  else some ({ newArrayBuffer none resource.length maxLength resource.resizable with sensitive := resource.sensitive }, resource, nextStore)

/-- what dec_value comes to: an ArrayBuffer record, any other record, or a failure -/
inductive DecodeEvent where
  | arrayBuffer (index : ℕ)
  | other
  | fails
  deriving DecidableEq, Repr

structure Decoding where
  resources : List SerResource
  received : List ArrayBuffer
  nextStore : ℕ

def decValues (take : Bool) : List DecodeEvent → Decoding → Decoding × Bool
  | [], d => (d, true)
  | .other :: events, d => decValues take events d
  | .fails :: _, d => (d, false)
  | .arrayBuffer index :: events, d =>
    match d.resources[index]? with
    | none => (d, false)
    | some resource =>
      match decBuffer take d.nextStore resource with
      | none => (d, false)
      | some (buffer, left, next) =>
        decValues take events ⟨d.resources.set index left, d.received ++ [buffer], next⟩

/-- mal_deserialize, mal_deserialize_take -/
def deserialize (take : Bool) (st : State) (id : ℕ) (s : MalSerializedValue) (events : List DecodeEvent) : State × Bool :=
  if s.consumed then (st, false)
  else if !s.committed && s.transfers.length > 0 then (st, false)
  else
    let (d, ok) := decValues take events ⟨s.resources, st.received, st.nextStore⟩
    ({ st with
        snapshots := st.snapshots.set id (some { s with resources := d.resources, consumed := take }),
        received := d.received, nextStore := d.nextStore }, ok)

def serializedValueRelease (st : State) (id : ℕ) (s : MalSerializedValue) : State :=
  { st with snapshots := st.snapshots.set id none, released := st.released ++ s.resources.filterMap (·.data) }

/-! ## The sender's own operations -/

inductive SenderOp where
  | allocate (byteLength maxByteLength : ℕ) (resizable : Bool)
  | detach (b : ℕ)
  /-- ArrayBuffer.prototype.transfer and its relatives -/
  | moveStore (b byteLength maxByteLength : ℕ) (resizable immutable : Bool)
  | resize (b byteLength : ℕ)
  | retainPin (b : ℕ)
  | releasePin (b : ℕ)
  | freeze (b : ℕ)
  | retainStore (b lease : ℕ)
  deriving DecidableEq, Repr

def updateBuffer (st : State) (b : ℕ) (f : ArrayBuffer → ArrayBuffer) : State :=
  match st.buffers[b]? with
  | some buffer => { st with buffers := st.buffers.set b { f buffer with data := buffer.data } }
  | none => st

def senderStep (st : State) : SenderOp → State
  | .allocate byteLength maxByteLength resizable =>
    if (if resizable then maxByteLength else byteLength) > 0 then
      { st with
        buffers := st.buffers ++ [newArrayBuffer (some st.nextStore) byteLength maxByteLength resizable],
        nextStore := st.nextStore + 1 }
    else { st with buffers := st.buffers ++ [newArrayBuffer none byteLength maxByteLength resizable] }
  | .detach b =>
    match st.buffers[b]? with
    | some buffer =>
      if buffer.detached || buffer.shared then st
      else { st with buffers := st.buffers.set b buffer.detach, released := st.released ++ buffer.data.toList }
    | none => st
  | .moveStore b byteLength maxByteLength resizable immutable =>
    match st.buffers[b]? with
    | some source =>
      if source.detached || source.shared || byteLength > source.allocationCapacity || maxByteLength > source.allocationCapacity then st
      else
        { st with
          buffers := st.buffers.set b { source.detach with sensitive := false } ++
            [{ newArrayBuffer source.data 0 0 false with
              storeLease := source.storeLease, byteLength := byteLength, maxByteLength := maxByteLength,
              allocationCapacity := source.allocationCapacity, resizable := resizable, immutable := immutable,
              sensitive := source.sensitive }] }
    | none => st
  | .resize b byteLength =>
    updateBuffer st b fun buffer =>
      if !buffer.resizable || buffer.detached || byteLength > buffer.maxByteLength then buffer
      else { buffer with byteLength := byteLength }
  | .retainPin b => updateBuffer st b fun buffer => { buffer with pins := buffer.pins + 1 }
  | .releasePin b => updateBuffer st b fun buffer => { buffer with pins := buffer.pins - 1 }
  | .freeze b => updateBuffer st b fun buffer => { buffer with immutable := true }
  | .retainStore b lease =>
    updateBuffer st b fun buffer =>
      if buffer.shared || buffer.detached then buffer else { buffer with storeLease := buffer.storeLease.orElse fun _ => some lease }

/-! ## Operations -/

inductive Op where
  | sender (op : SenderOp)
  | beginSerialize (hooks : Hooks) (list : TransferList)
  | encode (hooks : Hooks) (id : ℕ) (v : Transferable)
  /-- a getter threw, a value cannot be cloned, a limit was reached -/
  | encodeFails (id : ℕ)
  | finishSerialize (hooks : Hooks) (id : ℕ)
  | validate (hooks : Hooks) (id : ℕ)
  | commit (hooks : Hooks) (id : ℕ)
  | deserialize (take : Bool) (id : ℕ) (events : List DecodeEvent)
  | release (id : ℕ)

/-- the steps of mal_serialize itself -/
def Op.isSerialize : Op → Bool
  | .beginSerialize .. | .encode .. | .encodeFails .. | .finishSerialize .. => true
  | _ => false

def State.encoding (st : State) (id : ℕ) : Option (MalSerializedValue × List Transferable) :=
  match st.snapshots[id]? with
  | some (some s) => s.encoding.map fun memo => (s, memo)
  | _ => none

/-- a snapshot that mal_serialize returned and nobody released -/
def State.finished (st : State) (id : ℕ) : Option MalSerializedValue :=
  match st.snapshots[id]? with
  | some (some s) => if s.encoding.isSome then none else some s
  | _ => none

def newSnapshot (items : List Transferable) : MalSerializedValue where
  resources := []
  transfers := items.map fun v => ⟨v, none⟩
  committed := false
  consumed := false
  abortError := none
  encoding := some []

/-- the tail of mal_serialize -/
def finishSerialize (hooks : Hooks) (st : State) (id : ℕ) (s : MalSerializedValue) : State × Bool :=
  match fillTransfers hooks st.buffers (s.transfers.map (·.item)) s with
  | .error _ => (serializedValueRelease st id s, false)
  | .ok filled =>
    match serializedValueValidate hooks st.buffers filled with
    | some _ => (serializedValueRelease st id filled, false)
    | none => ({ st with snapshots := st.snapshots.set id (some { filled with encoding := none }) }, true)

def returning (r : State × Bool) : State × Option Bool := (r.1, some r.2)

/-- an operation and what it returns; none when there is no such snapshot to call it on -/
def step (st : State) : Op → State × Option Bool
  | .sender op => (senderStep st op, some true)
  | .beginSerialize hooks list =>
    match encValidateTransfers hooks st.buffers list with
    | .ok items => ({ st with snapshots := st.snapshots ++ [some (newSnapshot items)] }, some true)
    | .error _ => (st, some false)
  | .encode hooks id v =>
    match st.encoding id with
    | none => (st, none)
    | some (s, memo) =>
      match encValue hooks st s memo v with
      | .ok (s', next) => ({ st with snapshots := st.snapshots.set id (some s'), nextStore := next }, some true)
      | .error _ => (serializedValueRelease st id s, some false)
  | .encodeFails id =>
    match st.encoding id with
    | none => (st, none)
    | some (s, _) => (serializedValueRelease st id s, some false)
  | .finishSerialize hooks id =>
    match st.encoding id with
    | none => (st, none)
    | some (s, _) => returning (finishSerialize hooks st id s)
  | .validate hooks id =>
    match st.finished id with
    | none => (st, none)
    | some s => (st, some (serializedValueValidate hooks st.buffers s).isNone)
  | .commit hooks id =>
    match st.finished id with
    | none => (st, none)
    | some s => returning (serializeCommit hooks st id s)
  | .deserialize take id events =>
    match st.finished id with
    | none => (st, none)
    | some s => returning (deserialize take st id s events)
  | .release id =>
    match st.finished id with
    | none => (st, none)
    | some s => (serializedValueRelease st id s, some true)

def run (st : State) (ops : List Op) : State := ops.foldl (fun st op => (step st op).1) st

end Maligator.Transfer
