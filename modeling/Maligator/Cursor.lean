/-
Cursors over a Map or a Set that changes under them.

A cursor holds the storage and an integer index. `mapIteratorInit` and `setIteratorInit` open one as an iterator object does:
the storage is made if there is none, and pinned. From then on its steps may be interleaved with every call of the
collection's interface, other pins and unpins included, as long as the cursor's own pin is held.

`cursorCall_spec`: the storage is a store whose places change as the mutations say.
-/
import Maligator.Lib.LiveCursor
import Maligator.Map.Refinement
import Maligator.Set.Refinement

open Maligator.LiveList Option

namespace Maligator.MapObject

def mutation (env : KeyEnv) (call : CallMemory × MapOp) : Mutation CollectionKey MalValue :=
  match call.2 with
  | .set key value | .setHinted key value | .setBorrowed key value _ => .write (env.den key) value
  | .delete key => .remove (env.den key)
  | .clear => .removeAll
  | .get _ | .getHinted _ | .getBorrowed _ | .findHinted _ | .has _ | .reserve _ | .compact | .pin | .unpin => .keep

theorem specData_eq_apply (env : KeyEnv) (data : List (Option (CollectionKey × MalValue))) (call : CallMemory × MapOp) :
    specData env data call.2 = (mutation env call).apply data := by
  obtain ⟨memory, op⟩ := call
  cases op <;> rfl

def mapIteratorInit (env : MapEnv) (map : MalMapObject) : Option MalMapObject :=
  mapStoragePin ⟨some (mapObjectStorage env map)⟩

def cursorCall (env : KeyEnv) (map : MalMapObject) (call : CallMemory × MapOp) : Option MalMapObject :=
  (mapStep env map call.1 call.2).map Prod.fst

def cursorNext (env : KeyEnv) (map : MalMapObject) (index : ℕ) : Option (CollectionKey × MalValue) × ℕ :=
  ((mapIterNext map.entries index).1.map fun p => (env.den p.1, p.2), (mapIterNext map.entries index).2)

def CursorCallOk (map : MalMapObject) (call : CallMemory × MapOp) : Prop :=
  CallOk map call.2 ∧ (call.2 = .unpin → 2 ≤ (storageOf map).pins)

def Pinned (env : KeyEnv) (map : MalMapObject) : Prop :=
  ∃ s, map.entries = some s ∧ MapInv env s ∧ s.pins ≠ 0

theorem pinsAfter_pos {map : MalMapObject} {call : CallMemory × MapOp} (hok : CursorCallOk map call)
    (hp : (storageOf map).pins ≠ 0) : pinsAfter map call.2 ≠ 0 := by
  obtain ⟨memory, op⟩ := call
  cases op with
  | unpin =>
    have := hok.2 rfl
    simp only [pinsAfter]
    omega
  | pin => simp only [pinsAfter]; omega
  | _ => exact hp

variable {env : KeyEnv} (map : MalMapObject)

theorem cursorCall_spec (call : CallMemory × MapOp) (hmap : Pinned env map) (hok : CursorCallOk map call) :
    ∃ map', cursorCall env map call = some map' ∧ Pinned env map' ∧
      mapData env (storageOf map') = (mutation env call).apply (mapData env (storageOf map)) := by
  obtain ⟨s, hs, hI, hp⟩ := hmap
  have hstorage := mapObjectStorage_of_entries (call.1.env env) hs
  have hof : storageOf map = s := by rw [storageOf, hs]; rfl
  obtain ⟨map', hstep, heff⟩ := mapStep_effect call.1 (by rw [hstorage]; exact hI) hok.1
  have hpos : pinsAfter map call.2 ≠ 0 := pinsAfter_pos hok (by rw [hof]; exact hp)
  refine ⟨map', by rw [cursorCall, hstep]; rfl, ?_⟩
  cases ht : map'.entries with
  | none =>
    -- a storage that had to be made would have no pins
    have hpins := heff.pins
    rw [mapObjectStorage, ht] at hpins
    exact absurd hpins.symm hpos
  | some t =>
    have hstorage' := mapObjectStorage_of_entries (call.1.env env) ht
    have hof' : storageOf map' = t := by rw [storageOf, ht]; rfl
    have hdata := heff.data (by rw [hof]; exact hp)
    rw [hstorage', hstorage] at hdata
    refine ⟨⟨t, ht, hstorage' ▸ heff.inv, ?_⟩, by rw [hof', hof, hdata, specData_eq_apply]⟩
    rw [← hstorage', heff.pins]
    exact hpos

theorem cursorNext_spec (i : ℕ) (hmap : Pinned env map) :
    cursorNext env map i = next (mapData env (storageOf map)) i := by
  obtain ⟨s, hs, hI, -⟩ := hmap
  have hof : storageOf map = s := by rw [storageOf, hs]; rfl
  rw [cursorNext, hs, hof]
  exact mapIterNext_spec hI i

theorem nodup_of_pinned (hmap : Pinned env map) : ((live (mapData env (storageOf map))).map Prod.fst).Nodup := by
  obtain ⟨s, hs, hI, -⟩ := hmap
  rw [storageOf, hs, live_mapData]
  exact hI.nodup

theorem mapIteratorInit_spec {map opened : MalMapObject} {l : List (CollectionKey × MalValue)}
    (hr : Represents env map l) (memory : CallMemory) (ho : mapIteratorInit (memory.env env) map = some opened) :
    Pinned env opened ∧ live (mapData env (storageOf opened)) = l := by
  obtain ⟨hI, hl⟩ := hr.storage memory
  unfold mapIteratorInit mapStoragePin at ho
  dsimp only at ho
  split_ifs at ho
  rw [← some.inj ho]
  refine ⟨⟨_, rfl, hI.counters _ _, Nat.succ_ne_zero _⟩, ?_⟩
  rw [live_mapData, ← hl]
  rfl

end Maligator.MapObject

namespace Maligator.SetObject

def mutation (env : KeyEnv) (call : CallMemory × SetOp) : Mutation CollectionKey Unit :=
  match call.2 with
  | .add key => .write (env.den key) ()
  | .delete key => .remove (env.den key)
  | .clear => .removeAll
  | .has _ | .reserve _ | .compact | .pin | .unpin => .keep

theorem specData_eq_apply (env : KeyEnv) (data : List (Option (CollectionKey × Unit))) (call : CallMemory × SetOp) :
    specData env data call.2 = (mutation env call).apply data := by
  obtain ⟨memory, op⟩ := call
  cases op <;> rfl

def setIteratorInit (env : SetEnv) (set : MalSetObject) : Option MalSetObject :=
  setStoragePin ⟨some (setObjectStorage env set)⟩

def cursorCall (env : KeyEnv) (set : MalSetObject) (call : CallMemory × SetOp) : Option MalSetObject :=
  (setStep env set call.1 call.2).map Prod.fst

def cursorNext (env : KeyEnv) (set : MalSetObject) (index : ℕ) : Option (CollectionKey × Unit) × ℕ :=
  ((setIterNext set.entries index).1.map fun key => (env.den key, ()), (setIterNext set.entries index).2)

def CursorCallOk (set : MalSetObject) (call : CallMemory × SetOp) : Prop :=
  CallOk set call.2 ∧ (call.2 = .unpin → 2 ≤ (storageOf set).pins)

def Pinned (env : KeyEnv) (set : MalSetObject) : Prop :=
  ∃ s, set.entries = some s ∧ SetInv env s ∧ s.pins ≠ 0

theorem pinsAfter_pos {set : MalSetObject} {call : CallMemory × SetOp} (hok : CursorCallOk set call)
    (hp : (storageOf set).pins ≠ 0) : pinsAfter set call.2 ≠ 0 := by
  obtain ⟨memory, op⟩ := call
  cases op with
  | unpin =>
    have := hok.2 rfl
    simp only [pinsAfter]
    omega
  | pin => simp only [pinsAfter]; omega
  | _ => exact hp

variable {env : KeyEnv} (set : MalSetObject)

theorem cursorCall_spec (call : CallMemory × SetOp) (hset : Pinned env set) (hok : CursorCallOk set call) :
    ∃ set', cursorCall env set call = some set' ∧ Pinned env set' ∧
      setData env (storageOf set') = (mutation env call).apply (setData env (storageOf set)) := by
  obtain ⟨s, hs, hI, hp⟩ := hset
  have hstorage := setObjectStorage_of_entries (call.1.env env) hs
  have hof : storageOf set = s := by rw [storageOf, hs]; rfl
  have hinv : ∀ s, set.entries = some s → SetInv env s := fun s' hs' => by
    rw [hs, some.injEq] at hs'
    exact hs' ▸ hI
  obtain ⟨set', hstep, heff⟩ := setStep_effect call.1 hinv hok.1
  have hpos : pinsAfter set call.2 ≠ 0 := pinsAfter_pos hok (by rw [hof]; exact hp)
  refine ⟨set', by rw [cursorCall, hstep]; rfl, ?_⟩
  cases ht : set'.entries with
  | none =>
    have hpins := heff.pins
    rw [setObjectStorage, ht] at hpins
    exact absurd hpins.symm hpos
  | some t =>
    have hstorage' := setObjectStorage_of_entries (call.1.env env) ht
    have hof' : storageOf set' = t := by rw [storageOf, ht]; rfl
    have hdata := heff.data (by rw [hof]; exact hp)
    rw [hstorage', hstorage] at hdata
    refine ⟨⟨t, ht, hstorage' ▸ heff.inv, ?_⟩, by rw [hof', hof, hdata, specData_eq_apply]⟩
    rw [← hstorage', heff.pins]
    exact hpos

theorem cursorNext_spec (i : ℕ) (hset : Pinned env set) :
    cursorNext env set i = next (setData env (storageOf set)) i := by
  obtain ⟨s, hs, -⟩ := hset
  have hof : storageOf set = s := by rw [storageOf, hs]; rfl
  rw [cursorNext, hs, hof]
  exact setIterNext_spec env s i

theorem nodup_of_pinned (hset : Pinned env set) : ((live (setData env (storageOf set))).map Prod.fst).Nodup := by
  obtain ⟨s, hs, hI, -⟩ := hset
  rw [storageOf, hs, live_setData, ← contents_setStore]
  exact hI.nodup

theorem setIteratorInit_spec {set opened : MalSetObject} {l : List CollectionKey}
    (hr : Represents env set l) (memory : CallMemory) (ho : setIteratorInit (memory.env env) set = some opened) :
    Pinned env opened ∧ live (setData env (storageOf opened)) = l.map (·, ()) := by
  obtain ⟨hI, hcont⟩ := storage_spec memory hr.inv
  unfold setIteratorInit setStoragePin at ho
  dsimp only at ho
  split_ifs at ho
  rw [← some.inj ho]
  refine ⟨⟨_, rfl, hI.counters _ _, Nat.succ_ne_zero _⟩, ?_⟩
  rw [live_setData, ← hr.contents, hcont, List.map_map]
  exact (List.map_id _).symm

end Maligator.SetObject

namespace Maligator

/-- **Cursors follow the live list.** A cursor is opened on a collection that any sequence of calls has made, and its steps
are interleaved with any calls. Its steps yield what the list of entries with empty places yields, which is the entries ahead
of the cursor in their order, each moved to the passed ones when it is yielded; and every entry keeps its position. -/
theorem cursor_follows_live_list (env : KeyEnv) :
    (∀ (calls : List (MapObject.CallMemory × MapObject.MapOp)) (memory : MapObject.CallMemory)
      (events : List (CursorEvent (MapObject.CallMemory × MapObject.MapOp))) map outputs opened,
      MapObject.Within env ⟨none⟩ calls → MapObject.mapRun env ⟨none⟩ calls = some (map, outputs) →
      MapObject.mapIteratorInit (memory.env env) map = some opened →
      Allowed (MapObject.cursorCall env) MapObject.CursorCallOk opened events →
      ∃ last index yields,
        cursorRun (MapObject.cursorCall env) (MapObject.cursorNext env) opened 0 events = some (last, index, yields) ∧
        yields = dataRun (MapObject.mutation env) ((MapObject.specRun env [] calls).1.map some) events ∧
        yields = (liveRun (MapObject.mutation env) ⟨[], (MapObject.specRun env [] calls).1⟩ events).2 ∧
        Kept (MapObject.mapData env (MapObject.storageOf opened)) (MapObject.mapData env (MapObject.storageOf last))) ∧
    (∀ (calls : List (SetObject.CallMemory × SetObject.SetOp)) (memory : SetObject.CallMemory)
      (events : List (CursorEvent (SetObject.CallMemory × SetObject.SetOp))) set outputs opened,
      SetObject.Within env ⟨none⟩ calls → SetObject.setRun env ⟨none⟩ calls = some (set, outputs) →
      SetObject.setIteratorInit (memory.env env) set = some opened →
      Allowed (SetObject.cursorCall env) SetObject.CursorCallOk opened events →
      ∃ last index yields,
        cursorRun (SetObject.cursorCall env) (SetObject.cursorNext env) opened 0 events = some (last, index, yields) ∧
        yields = dataRun (SetObject.mutation env) ((SetObject.specRun env [] calls).1.map fun k => some (k, ())) events ∧
        yields = (liveRun (SetObject.mutation env) ⟨[], (SetObject.specRun env [] calls).1.map (·, ())⟩ events).2 ∧
        Kept (SetObject.setData env (SetObject.storageOf opened)) (SetObject.setData env (SetObject.storageOf last))) := by
  constructor
  · intro calls memory events map outputs opened hw hrun ho hok
    obtain ⟨map', hrun', hr⟩ := MapObject.mapRun_represents calls ⟨fun s hs => by simp at hs, rfl⟩ hw
    rw [hrun] at hrun'
    obtain ⟨rfl, -⟩ := hrun'
    exact cursorRun_opened _ _ _ MapObject.cursorCall_spec MapObject.cursorNext_spec MapObject.nodup_of_pinned
      (MapObject.mapIteratorInit_spec hr memory ho) hok
  · intro calls memory events set outputs opened hw hrun ho hok
    obtain ⟨set', hrun', hr⟩ := SetObject.setRun_represents calls ⟨fun s hs => by simp at hs, rfl⟩ hw
    rw [hrun] at hrun'
    obtain ⟨rfl, -⟩ := hrun'
    have h := cursorRun_opened _ _ _ SetObject.cursorCall_spec SetObject.cursorNext_spec SetObject.nodup_of_pinned
      (SetObject.setIteratorInit_spec hr memory ho) hok
    rw [List.map_map] at h
    exact h

/-- a key that a cursor has yielded, deleted and set again, is yielded again -/
theorem cursor_follows_live_list_reinserted : let env : KeyEnv := ⟨fun _ => [], fun _ => 0, fun _ => 0⟩
    let key : MalValue := 0xFFFD000000000010#64
    let memory : MapObject.CallMemory := ⟨⟨fun _ => 0, fun _ => 0, fun _ => ⟨0, 0⟩⟩, fun _ => 0,
      ⟨fun _ => .owned, fun _ => true, fun _ => 0, fun _ => 0, id⟩⟩
    let memory' : SetObject.CallMemory := ⟨⟨fun _ => 0, fun _ => 0, fun _ => 0⟩, fun _ => 0⟩
    (∃ opened last index, cursorRun (MapObject.cursorCall env) (MapObject.cursorNext env) opened 0
      [.next, .call (memory, .delete key), .call (memory, .set key 2), .next, .next] =
        some (last, index, [some (.bits key, 1), some (.bits key, 2), none])) ∧
    (∃ opened last index, cursorRun (SetObject.cursorCall env) (SetObject.cursorNext env) opened 0
      [.next, .call (memory', .delete key), .call (memory', .add key), .next, .next] =
        some (last, index, [some (.bits key, ()), some (.bits key, ()), none])) := by
  intro env key memory memory'
  have hc : Canonical key := ⟨by decide, by decide, by decide⟩
  constructor
  · have hw : MapObject.Within env ⟨none⟩ [(memory, .set key 1)] :=
      ⟨⟨hc, by decide, by decide, by decide⟩, fun _ _ _ => trivial⟩
    have hroom : ((MapObject.mapRun env ⟨none⟩ [(memory, .set key 1)]).bind fun r => (MapObject.mapIteratorInit (memory.env env) r.1).bind
        fun opened => (MapObject.cursorCall env opened (memory, .delete key)).map fun deleted =>
          decide (MapObject.MapRoom (MapObject.storageOf deleted))) = some true := by decide
    obtain ⟨⟨map, outputs⟩, hrun, hroom⟩ := bind_eq_some_iff.1 hroom
    obtain ⟨opened, hopened, hroom⟩ := bind_eq_some_iff.1 hroom
    have hfollows := (cursor_follows_live_list env).1 _ memory
      [.next, .call (memory, .delete key), .call (memory, .set key 2), .next, .next] map outputs opened hw hrun hopened
    obtain ⟨last, index, yields, hcursor, hyields, -⟩ := hfollows ⟨⟨hc, by simp⟩, fun deleted hdeleted => by
      rw [hdeleted, map_some, some.injEq, decide_eq_true_eq] at hroom
      exact ⟨⟨⟨hc, by decide, hroom⟩, by simp⟩, fun _ _ => trivial⟩⟩
    refine ⟨opened, last, index, hcursor.trans ?_⟩
    rw [hyields]
    exact congrArg (fun yields => some (last, index, yields)) (by decide)
  · have hw : SetObject.Within env ⟨none⟩ [(memory', .add key)] :=
      ⟨⟨hc, by decide, by decide⟩, fun _ _ _ => trivial⟩
    have hroom : ((SetObject.setRun env ⟨none⟩ [(memory', .add key)]).bind fun r => (SetObject.setIteratorInit (memory'.env env) r.1).bind
        fun opened => (SetObject.cursorCall env opened (memory', .delete key)).map fun deleted =>
          decide (SetObject.SetRoom (SetObject.storageOf deleted))) = some true := by decide
    obtain ⟨⟨set, outputs⟩, hrun, hroom⟩ := bind_eq_some_iff.1 hroom
    obtain ⟨opened, hopened, hroom⟩ := bind_eq_some_iff.1 hroom
    have hfollows := (cursor_follows_live_list env).2 _ memory'
      [.next, .call (memory', .delete key), .call (memory', .add key), .next, .next] set outputs opened hw hrun hopened
    obtain ⟨last, index, yields, hcursor, hyields, -⟩ := hfollows ⟨⟨hc, by simp⟩, fun deleted hdeleted => by
      rw [hdeleted, map_some, some.injEq, decide_eq_true_eq] at hroom
      exact ⟨⟨⟨hc, hroom⟩, by simp⟩, fun _ _ => trivial⟩⟩
    refine ⟨opened, last, index, hcursor.trans ?_⟩
    rw [hyields]
    exact congrArg (fun yields => some (last, index, yields)) (by decide)

end Maligator
