/-
Map storage refines the ECMAScript Map.

`MapOp` is a call of the Map interface, `mapStep` what the storage does and returns, `specStep` what an insertion-ordered
list with unique keys does and returns. `Within` says that a sequence of calls stays in the domain of the interface:
canonical keys, stored values other than EMPTY, and sizes below the limits that int32 capacities set.

`mapStep_effect`: one call within the domain returns, returns what the list returns, and changes the data as specified.
-/
import Maligator.Map.Operations

namespace Maligator.MapObject

open HashIndex Option Rows LiveList

/-! ## Calls -/

/-- what the allocations of one call happen to hold, and how strings are represented at its time -/
structure CallMemory where
  fresh : MalMapPayload
  freshSlots : ℕ → ℕ
  strings : StringView

inductive MapOp where
  | set (key value : MalValue)
  | setHinted (key value : MalValue)
  | setBorrowed (key value : MalValue) (entry : ℕ)
  | get (key : MalValue)
  | getHinted (key : MalValue)
  | getBorrowed (key : MalValue)
  | findHinted (key : MalValue)
  | has (key : MalValue)
  | delete (key : MalValue)
  | clear
  | reserve (desiredSize : ℕ)
  | compact
  | pin
  | unpin

inductive MapOutput where
  | done
  | value (value : MalValue)
  | present (found : Bool)
  | entry (found : Bool) (value : MalValue)
  | reserved (ok : Bool)
  deriving DecidableEq

def CallMemory.env (memory : CallMemory) (env : KeyEnv) : MapEnv := ⟨env, memory.fresh, memory.freshSlots⟩

/-- the call on the storage; an entry is observed through its presence and its value -/
def mapStep (env : KeyEnv) (map : MalMapObject) (memory : CallMemory) : MapOp → Option (MalMapObject × MapOutput)
  | .set key value => (mapObjectSet (memory.env env) memory.strings map key value).map (·, .done)
  | .setHinted key value => (mapSetHinted (memory.env env) memory.strings map key value).map (·, .done)
  | .setBorrowed key value entry =>
    (mapObjectSetBorrowed (memory.env env) memory.strings map key value entry).map (·, .done)
  | .get key => (mapObjectGet env map key).map fun value => (map, .value value)
  | .getHinted key => (mapObjectGetHinted env map key).map fun (map, value) => (map, .value value)
  | .getBorrowed key =>
    (mapObjectGetBorrowed env map key).map fun (map, value, entry) => (map, .entry (entry != 0) value)
  | .findHinted key =>
    (mapObjectFindHinted env map key).map fun (map, entry) =>
      (map, .entry (entry != 0) (mapEntryValue map.entries entry))
  | .has key => (mapObjectHas env map key).map fun found => (map, .present found)
  | .delete key => (mapObjectDelete (memory.env env) map key).map fun (map, found) => (map, .present found)
  | .clear => (mapObjectClear (memory.env env) map).map (·, .done)
  | .reserve desiredSize =>
    (mapObjectReserve (memory.env env) map desiredSize).map fun (map, ok) => (map, .reserved ok)
  | .compact => (mapObjectCompact (memory.env env) map).map (·, .done)
  | .pin => (mapStoragePin map).map (·, .done)
  | .unpin => (mapStorageUnpin map).map (·, .done)

def specStep (env : KeyEnv) (l : List (CollectionKey × MalValue)) : MapOp → List (CollectionKey × MalValue) × MapOutput
  | .set key value | .setHinted key value | .setBorrowed key value _ => (Rows.insert l (env.den key) value, .done)
  | .get key | .getHinted key => (l, .value ((lookup l (env.den key)).getD valueUndefined))
  | .getBorrowed key | .findHinted key =>
    (l, .entry (contains l (env.den key)) ((lookup l (env.den key)).getD valueUndefined))
  | .has key => (l, .present (contains l (env.den key)))
  | .delete key => (erase l (env.den key), .present (contains l (env.den key)))
  | .clear => ([], .done)
  | .reserve _ => (l, .reserved true)
  | .compact | .pin | .unpin => (l, .done)

def storageOf (map : MalMapObject) : MalMapStorage :=
  map.entries.getD ⟨none, ⟨0, fun _ => hashEmpty, fun _ => 0⟩, 0, 0, mapSmallCapacity, 0, 0, 0, 0, 0, .empty, false,
    fun _ => 0, fun _ => 0⟩

/-- the arguments of a call are in the domain of the interface, and the sizes it needs below the limits -/
def CallOk (map : MalMapObject) : MapOp → Prop
  | .set key value | .setHinted key value | .setBorrowed key value _ =>
    Canonical key ∧ value ≠ valueEmpty ∧ MapRoom (storageOf map)
  | .get key | .getHinted key | .getBorrowed key | .findHinted key | .has key | .delete key => Canonical key
  | .reserve desiredSize => ReserveRoom (storageOf map) desiredSize
  | .pin => (storageOf map).pins ≠ uint32Max
  | .clear | .compact | .unpin => True

/-! ## One call -/

/-- the abstraction: the storage, if there is one, is well formed and its contents are the list -/
structure Represents (env : KeyEnv) (map : MalMapObject) (l : List (CollectionKey × MalValue)) : Prop where
  inv : ∀ s, map.entries = some s → MapInv env s
  contents : map.entries.elim [] (fun s => (mapStore s).contents env) = l

variable {env : KeyEnv} {map : MalMapObject}

variable {l : List (CollectionKey × MalValue)} {memory : CallMemory} {op : MapOp}

theorem Represents.storage (h : Represents env map l) (memory : CallMemory) :
    MapInv env (mapObjectStorage (memory.env env) map) ∧ (mapStore (mapObjectStorage (memory.env env) map)).contents env = l := by
  have hc := h.contents
  unfold mapObjectStorage
  cases he : map.entries with
  | none =>
    rw [he] at hc
    exact ⟨mapInv_storageNew (memory.env env), hc⟩
  | some s =>
    rw [he] at hc
    exact ⟨h.inv s he, hc⟩

theorem represents_of_storage (h : MapInv env (mapObjectStorage (memory.env env) map)) :
    Represents env map ((mapStore (mapObjectStorage (memory.env env) map)).contents env) := by
  unfold mapObjectStorage at h ⊢
  cases he : map.entries with
  | none => exact ⟨fun s hs => by simp [he] at hs, by rw [he]; rfl⟩
  | some s =>
    rw [he] at h
    exact ⟨fun s' hs => by rw [he, some.injEq] at hs; exact hs ▸ h, by rw [he]; rfl⟩

theorem room_iff (map : MalMapObject) (memory : CallMemory) (env : KeyEnv) :
    (MapRoom (storageOf map) → MapRoom (mapObjectStorage (memory.env env) map)) ∧
    (∀ n, ReserveRoom (storageOf map) n → ReserveRoom (mapObjectStorage (memory.env env) map) n) ∧
    (mapObjectStorage (memory.env env) map).pins = (storageOf map).pins := by
  unfold storageOf mapObjectStorage
  cases map.entries with
  | none => exact ⟨fun h => ⟨h.members, h.rows⟩, fun n h => ⟨h.members, h.rows⟩, rfl⟩
  | some s => exact ⟨id, fun _ => id, rfl⟩

def specData (env : KeyEnv) (data : List (Option (CollectionKey × MalValue))) :
    MapOp → List (Option (CollectionKey × MalValue))
  | .set key value | .setHinted key value | .setBorrowed key value _ => write data (env.den key) value
  | .delete key => remove data (env.den key)
  | .clear => removeAll data
  | .get _ | .getHinted _ | .getBorrowed _ | .findHinted _ | .has _ | .reserve _ | .compact | .pin | .unpin => data

def pinsAfter (map : MalMapObject) : MapOp → ℕ
  | .pin => (storageOf map).pins + map.entries.isSome.toNat
  | .unpin => (storageOf map).pins - 1
  | _ => (storageOf map).pins

/-- what a call does to the storage: as `Store.Effect`, with the pins it takes or drops -/
structure StepEffect (env : KeyEnv) (memory : CallMemory) (map map' : MalMapObject) (op : MapOp) : Prop where
  inv : MapInv env (mapObjectStorage (memory.env env) map')
  contents : (mapStore (mapObjectStorage (memory.env env) map')).contents env =
    live (specData env (mapData env (mapObjectStorage (memory.env env) map)) op)
  data : (storageOf map).pins ≠ 0 → mapData env (mapObjectStorage (memory.env env) map') =
    specData env (mapData env (mapObjectStorage (memory.env env) map)) op
  pins : (mapObjectStorage (memory.env env) map').pins = pinsAfter map op

theorem MapEffect.step {map' : MalMapObject}
    (h : MapEffect env (mapObjectStorage (memory.env env) map) (mapObjectStorage (memory.env env) map') (specData env · op))
    (hp : pinsAfter map op = (storageOf map).pins) : StepEffect env memory map map' op := by
  have hpins := (room_iff map memory env).2.2
  obtain ⟨hinv, hcont, hdata, hkeep⟩ := h
  exact ⟨hinv, hcont, fun hne => hdata fun h => hne (hpins.symm.trans h), hkeep.trans (hpins.trans hp.symm)⟩

theorem live_specData {data : List (Option (CollectionKey × MalValue))}
    (hu : ((live data).map Prod.fst).Nodup) (op : MapOp) :
    live (specData env data op) = (specStep env (live data) op).1 := by
  cases op with
  | set key value | setHinted key value | setBorrowed key value entry => exact live_write hu _ _
  | delete key => exact live_remove hu _
  | clear => exact live_removeAll data
  | get | getHinted | getBorrowed | findHinted | has | reserve | compact | pin | unpin => rfl

section Calls

variable (memory : CallMemory)
  (hI : MapInv env (mapObjectStorage (memory.env env) map))

include hI

theorem mapObjectFindHinted_refines {key : MalValue} (hc : Canonical key) :
    ∃ map' entry, mapObjectFindHinted env map key = some (map', entry) ∧
      MapEffect env (mapObjectStorage (memory.env env) map) (mapObjectStorage (memory.env env) map') id ∧
      (entry != 0) = contains ((mapStore (mapObjectStorage (memory.env env) map)).contents env) (env.den key) ∧
      mapEntryValue map'.entries entry =
        (lookup ((mapStore (mapObjectStorage (memory.env env) map)).contents env) (env.den key)).getD valueUndefined := by
  have hI' : MapInv (memory.env env).toKeyEnv (mapObjectStorage (memory.env env) map) := hI
  obtain ⟨map', entry, hfind, hfound, hnone⟩ := mapObjectFindHinted_spec hI' hc
  refine ⟨map', entry, hfind, hfound.effect, ?_, ?_⟩
  · rw [← hfound.store]
    exact (hfound.answer.contains).symm
  · rw [← hfound.store]
    refine Eq.trans ?_ (hfound.answer.value hfound.inv).symm
    cases he : map'.entries with
    | none => rw [hnone he]; rfl
    | some t => rw [mapObjectStorage_of_entries _ he]

theorem mapObjectFindCanonical_refines {key : MalValue} (hc : Canonical key) :
    ∃ entry, mapObjectFindCanonical env map key = some entry ∧
      (entry != 0) = contains ((mapStore (mapObjectStorage (memory.env env) map)).contents env) (env.den key) ∧
      mapEntryValue map.entries entry =
        (lookup ((mapStore (mapObjectStorage (memory.env env) map)).contents env) (env.den key)).getD valueUndefined := by
  unfold mapObjectFindCanonical
  cases he : map.entries with
  | none =>
    rw [mapObjectStorage, he]
    exact ⟨0, rfl, rfl, rfl⟩
  | some s =>
    have hs := mapObjectStorage_of_entries (memory.env env) he
    rw [hs] at hI ⊢
    obtain ⟨entry, hfind, hans⟩ := mapStorageFind_spec hI hc
    exact ⟨entry, hfind, hans.contains.symm, (hans.value hI).symm⟩

theorem mapStep_effect (hop : CallOk map op) : ∃ map', mapStep env map memory op =
        some (map', (specStep env ((mapStore (mapObjectStorage (memory.env env) map)).contents env) op).2) ∧
      StepEffect env memory map map' op := by
  have hI' : MapInv (memory.env env).toKeyEnv (mapObjectStorage (memory.env env) map) := hI
  obtain ⟨hroom, hreserve, hpins⟩ := room_iff map memory env
  cases op with
  | set key value =>
    obtain ⟨hc, hv, hr⟩ := hop
    obtain ⟨t, ht, heff⟩ := mapObjectSet_spec memory.strings hI' hv (hroom hr) hc.notEmpty
    rw [collectionCanonicalValue_of_canonical hc] at heff
    exact ⟨⟨some t⟩, by rw [mapStep, ht]; rfl, MapEffect.step heff rfl⟩
  | setHinted key value =>
    obtain ⟨hc, hv, hr⟩ := hop
    obtain ⟨t, ht, heff⟩ := mapSetHinted_spec memory.strings hI' hv (hroom hr) hc
    exact ⟨⟨some t⟩, by rw [mapStep, ht]; rfl, MapEffect.step heff rfl⟩
  | setBorrowed key value entry =>
    obtain ⟨hc, hv, hr⟩ := hop
    obtain ⟨t, ht, heff⟩ := mapObjectSetBorrowed_spec memory.strings hI' hv (hroom hr) hc entry
    exact ⟨⟨some t⟩, by rw [mapStep, ht]; rfl, MapEffect.step heff rfl⟩
  | get key =>
    obtain ⟨entry, hfind, -, hval⟩ := mapObjectFindCanonical_refines memory hI hop
    refine ⟨map, ?_, MapEffect.step ⟨hI, .refl _ _⟩ rfl⟩
    rw [mapStep, mapObjectGet, collectionCanonicalValue_of_canonical hop, hfind]
    simp only [map_some, hval, specStep]
  | getHinted key =>
    obtain ⟨map', entry, hfind, heff, -, hval⟩ := mapObjectFindHinted_refines memory hI hop
    refine ⟨map', ?_, MapEffect.step heff rfl⟩
    rw [mapStep, mapObjectGetHinted, hfind]
    simp only [map_some, hval, specStep]
  | getBorrowed key =>
    obtain ⟨map', entry, hfind, heff, hfound, hval⟩ := mapObjectFindHinted_refines memory hI hop
    refine ⟨map', ?_, MapEffect.step heff rfl⟩
    rw [mapStep, mapObjectGetBorrowed, hfind]
    simp only [map_some, hval, hfound, specStep]
  | findHinted key =>
    obtain ⟨map', entry, hfind, heff, hfound, hval⟩ := mapObjectFindHinted_refines memory hI hop
    refine ⟨map', ?_, MapEffect.step heff rfl⟩
    rw [mapStep, hfind]
    simp only [map_some, hval, hfound, specStep]
  | has key =>
    obtain ⟨entry, hfind, hfound, -⟩ := mapObjectFindCanonical_refines memory hI hop
    refine ⟨map, ?_, MapEffect.step ⟨hI, .refl _ _⟩ rfl⟩
    rw [mapStep, mapObjectHas, collectionCanonicalValue_of_canonical hop, hfind]
    simp only [map_some, hfound, specStep]
  | delete key =>
    obtain ⟨map', hdel, heff⟩ := mapDeleteCanonical_spec hI' hop
    refine ⟨map', ?_, MapEffect.step heff rfl⟩
    rw [mapStep, mapObjectDelete, collectionCanonicalValue_of_canonical hop, hdel]
    rfl
  | clear =>
    obtain ⟨map', hclear, heff⟩ := mapObjectClear_spec hI'
    exact ⟨map', by rw [mapStep, hclear]; rfl, MapEffect.step heff rfl⟩
  | reserve desiredSize =>
    obtain ⟨map', hres, heff⟩ := mapObjectReserve_spec hI' (hreserve _ hop)
    exact ⟨map', by rw [mapStep, hres]; rfl, MapEffect.step heff rfl⟩
  | compact =>
    obtain ⟨map', hcomp, heff⟩ := mapObjectCompact_spec hI'
    exact ⟨map', by rw [mapStep, hcomp]; rfl, MapEffect.step heff rfl⟩
  | pin =>
    obtain ⟨map', hpin, hinv, hdata, hp⟩ := mapStoragePin_spec hI' (hpins ▸ hop)
    exact ⟨map', by rw [mapStep, hpin]; rfl, hinv, (live_mapData _ _).symm.trans (congrArg live hdata), fun _ => hdata,
      by rw [hp, hpins]; rfl⟩
  | unpin =>
    obtain ⟨map', hpin, hinv, hdata, hp⟩ := mapStorageUnpin_spec hI'
    exact ⟨map', by rw [mapStep, hpin]; rfl, hinv, (live_mapData _ _).symm.trans (congrArg live hdata), fun _ => hdata,
      by rw [hp, hpins]; rfl⟩

end Calls

/-! ## Sequences of calls -/

def mapRun (env : KeyEnv) : MalMapObject → List (CallMemory × MapOp) → Option (MalMapObject × List MapOutput)
  | map, [] => some (map, [])
  | map, (memory, op) :: calls => do
    let (map, output) ← mapStep env map memory op
    let (map, outputs) ← mapRun env map calls
    return (map, output :: outputs)

def specRun (env : KeyEnv) : List (CollectionKey × MalValue) → List (CallMemory × MapOp) →
    List (CollectionKey × MalValue) × List MapOutput
  | l, [] => (l, [])
  | l, (_, op) :: calls =>
    let (l, output) := specStep env l op
    let (l, outputs) := specRun env l calls
    (l, output :: outputs)

def Within (env : KeyEnv) : MalMapObject → List (CallMemory × MapOp) → Prop
  | _, [] => True
  | map, (memory, op) :: calls =>
    CallOk map op ∧ ∀ map' output, mapStep env map memory op = some (map', output) → Within env map' calls

theorem mapStep_represents (hr : Represents env map l) (memory : CallMemory) (hop : CallOk map op) :
    ∃ map', mapStep env map memory op = some (map', (specStep env l op).2) ∧
      Represents env map' (specStep env l op).1 := by
  obtain ⟨hI, hl⟩ := hr.storage memory
  obtain ⟨map', hstep, heff⟩ := mapStep_effect memory hI hop
  refine ⟨map', hl ▸ hstep, ?_⟩
  have hcont : (mapStore (mapObjectStorage (memory.env env) map')).contents env = (specStep env l op).1 := by
    rw [heff.contents, live_specData (by rw [live_mapData]; exact hI.nodup), live_mapData, hl]
  rw [← hcont]
  exact represents_of_storage heff.inv

theorem mapRun_represents : ∀ (calls : List (CallMemory × MapOp)) {map : MalMapObject}
    {l : List (CollectionKey × MalValue)}, Represents env map l → Within env map calls →
    ∃ map', mapRun env map calls = some (map', (specRun env l calls).2) ∧
      Represents env map' (specRun env l calls).1 := by
  intro calls
  induction calls with
  | nil => exact fun hr _ => ⟨_, rfl, hr⟩
  | cons call calls ih =>
    intro map l hr hw
    obtain ⟨memory, op⟩ := call
    obtain ⟨hop, hrest⟩ := hw
    obtain ⟨map', hstep, hr'⟩ := mapStep_represents hr memory hop
    obtain ⟨map'', hrun, hr''⟩ := ih hr' (hrest _ _ hstep)
    refine ⟨map'', ?_, hr''⟩
    rw [mapRun, hstep]
    simp only [bind_eq_bind, bind_some, hrun]
    rfl

/-- **Map storage refines the ECMAScript Map.** Every sequence of calls from an empty Map returns, each call returns what
it returns on the insertion-ordered list of unique keys, and size and iteration are the list's. -/
theorem mapRun_refines (env : KeyEnv) (calls : List (CallMemory × MapOp)) (hw : Within env ⟨none⟩ calls) :
    ∃ map, mapRun env ⟨none⟩ calls = some (map, (specRun env [] calls).2) ∧
      ((specRun env [] calls).1.map Prod.fst).Nodup ∧
      mapObjectSize map = (specRun env [] calls).1.length ∧
      (mapIterAll map.entries ((storageOf map).count + 1) 0).map (fun p => (env.den p.1, p.2)) =
        (specRun env [] calls).1 := by
  have hempty : Represents env ⟨none⟩ [] := ⟨fun s hs => by simp at hs, rfl⟩
  obtain ⟨map, hrun, hr⟩ := mapRun_represents calls hempty hw
  refine ⟨map, hrun, ?_⟩
  generalize (specRun env [] calls).1 = l at hr
  have hc := hr.contents
  cases he : map.entries with
  | none =>
    subst hc
    simp [mapObjectSize, he, mapIterAll, mapIterNext]
  | some s =>
    have hI := hr.inv s he
    rw [he] at hc
    change (mapStore s).contents env = l at hc
    subst hc
    have hs : storageOf map = s := by rw [storageOf, he]; rfl
    exact ⟨hI.nodup, by rw [mapObjectSize, he]; exact hI.length.symm, by rw [hs, mapIterAll_spec hI]⟩

/-- an object key set twice, read and deleted -/
theorem mapRun_refines_object_key : let env : KeyEnv := ⟨fun _ => [], fun _ => 0, fun _ => 0⟩
    let memory : CallMemory := ⟨⟨fun _ => 0, fun _ => 0, fun _ => ⟨0, 0⟩⟩, fun _ => 0,
      ⟨fun _ => .owned, fun _ => true, fun _ => 0, fun _ => 0, id⟩⟩
    let key : MalValue := 0xFFFD000000000010#64
    let calls := [(memory, MapOp.set key 1), (memory, .setBorrowed key 2 7), (memory, .get key), (memory, .delete key)]
    ∃ map, mapRun env ⟨none⟩ calls = some (map, [.done, .done, .value 2, .present true]) ∧ mapObjectSize map = 0 := by
  intro env memory key calls
  have hc : Canonical key := ⟨by decide, by decide, by decide⟩
  -- the room for the second call
  have hroom : (mapStep env ⟨none⟩ memory (.set key 1)).map (fun r => decide (MapRoom (storageOf r.1))) = some true := by decide
  have hw : Within env ⟨none⟩ calls := by
    refine ⟨⟨hc, by decide, by decide, by decide⟩, fun map output h => ⟨⟨hc, by decide, ?_⟩, fun _ _ _ =>
      ⟨hc, fun _ _ _ => ⟨hc, fun _ _ _ => trivial⟩⟩⟩⟩
    rw [h, map_some, some.injEq, decide_eq_true_eq] at hroom
    exact hroom
  obtain ⟨map, hrun, -, hsize, -⟩ := mapRun_refines env calls hw
  have hout : specRun env [] calls = ([], [.done, .done, .value 2, .present true]) := by decide
  rw [hout] at hrun hsize
  exact ⟨map, hrun, hsize⟩

end Maligator.MapObject
