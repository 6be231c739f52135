/-
Weak storage refines a finite partial map.

The map is an association list with unique keys; its order has no meaning, so the rows of the storage are that list up to
a permutation. `WeakMapOp` and `WeakSetOp` are the calls of the two interfaces together with the collector's `retain`, whose
predicate is any function of the key.
-/
import Maligator.Weak.Operations

namespace Maligator.Weak

open HashIndex Option Rows

/-! ## The abstraction -/

section Represents

variable {V : Type} [DecidableEq V]

/-- the storage, if there is one, holds the rows of `l`, and all keys can be held weakly -/
structure Represents (registered : MalValue → Bool) (entries : Option (MalWeakStorage V)) (l : List (MalValue × V)) :
    Prop where
  inv : ∀ s, entries = some s → WeakInv s l
  empty : entries = none → l = []
  held : ∀ p ∈ l, weakKeyCanBeHeld registered p.1 = true

def rowsOf (entries : Option (MalWeakStorage V)) : List (MalValue × V) := entries.elim [] weakRows

variable {registered : MalValue → Bool} {entries : Option (MalWeakStorage V)} {l : List (MalValue × V)}

theorem represents_some {s : MalWeakStorage V} (hI : WeakInv s l)
    (hheld : ∀ p ∈ l, weakKeyCanBeHeld registered p.1 = true) : Represents registered (some s) l :=
  ⟨fun _ h => some.inj h ▸ hI, nofun, hheld⟩

theorem represents_none (registered : MalValue → Bool) : Represents registered (none : Option (MalWeakStorage V)) [] :=
  ⟨nofun, fun _ => rfl, nofun⟩

namespace Represents

section

variable (hr : Represents registered entries l)
include hr

theorem storage (fresh : ℕ → MalValue × V) : WeakInv (entries.getD (weakStorageNew fresh)) l := by
  cases he : entries with
  | none => rw [hr.empty he]; exact weakInv_storageNew fresh
  | some s => exact hr.inv s he

theorem nodup : (l.map Prod.fst).Nodup := by
  cases he : entries with
  | none => rw [hr.empty he]; exact List.nodup_nil
  | some s => exact (hr.inv s he).nodup

theorem rows : (rowsOf entries).Perm l := by
  cases he : entries with
  | none => rw [hr.empty he]; exact List.Perm.refl _
  | some s => exact (hr.inv s he).rows

theorem size : entries.elim 0 MalWeakStorage.size = l.length := by
  cases he : entries with
  | none => rw [hr.empty he]; rfl
  | some s => exact (hr.inv s he).size

theorem lookup (key : MalValue) : ∃ slot, weakLookup registered entries key = some slot ∧ slot.isSome = contains l key ∧
      ∀ s i, entries = some s → slot = some i → Rows.lookup l key = some (weakRow s i).2 := by
  cases he : entries with
  | none => rw [hr.empty he]; exact ⟨none, rfl, rfl, nofun⟩
  | some s =>
    obtain ⟨slot, hlookup, hout⟩ := weakLookup_spec (hr.inv s he) hr.held key
    refine ⟨slot, hlookup, ?_⟩
    cases hout with
    | found hlt hlive hkey hmem =>
      refine ⟨(contains_iff.2 (hkey ▸ List.mem_map_of_mem hmem)).symm, fun s' i hs hi => ?_⟩
      rw [← some.inj hs, ← some.inj hi, ← hkey]
      exact lookup_of_mem hr.nodup hmem
    | absent hnew =>
      refine ⟨?_, nofun⟩
      rw [eq_comm, isSome_none, ← Bool.not_eq_true, contains_iff]
      exact hnew

end

section

variable (hr : Represents registered entries l) (fresh : ℕ → MalValue × V)
include hr

theorem delete (key : MalValue) : ∃ entries', weakDelete registered fresh entries key = some (entries', contains l key) ∧
      Represents registered entries' (Rows.erase l key) := by
  have hheld : ∀ p ∈ Rows.erase l key, weakKeyCanBeHeld registered p.1 = true :=
    fun p hp => hr.held p (List.mem_of_mem_filter hp)
  cases he : entries with
  | none => rw [hr.empty he]; exact ⟨none, rfl, represents_none registered⟩
  | some s =>
    obtain ⟨t, ht, hI⟩ := weakDelete_spec (hr.inv s he) hr.held fresh key
    exact ⟨some t, ht, represents_some hI hheld⟩

theorem reserve (desiredSize : ℕ) :
    ∃ entries', weakReserve fresh entries desiredSize = some (entries', decide (desiredSize ≤ memberLimit)) ∧
      Represents registered entries' l := by
  have hsome : ∀ s, WeakInv s l → ∃ entries', weakReserve fresh (some s) desiredSize =
      some (entries', decide (desiredSize ≤ memberLimit)) ∧ Represents registered entries' l := by
    intro s hI
    obtain ⟨t, ht, hI'⟩ := weakReserve_spec hI fresh desiredSize
    exact ⟨some t, ht, represents_some hI' hr.held⟩
  cases he : entries with
  | some s => exact hsome s (hr.inv s he)
  | none =>
    by_cases hd : desiredSize = 0 ∨ memberLimit < desiredSize
    · -- nothing is allocated
      refine ⟨none, ?_, he ▸ hr⟩
      rcases hd with rfl | hd
      · obtain ⟨k, hcap, -⟩ := weakCapacity_spec (Nat.zero_le memberLimit)
        simp [weakReserve, hcap]
      · have hfalse : decide (desiredSize ≤ memberLimit) = false := decide_eq_false (by omega)
        rw [weakReserve, weakCapacity, collectionSlotCapacity_eq_none hd, hfalse]
    rw [not_or] at hd
    obtain ⟨k, hcap, -⟩ := weakCapacity_spec (Nat.le_of_not_lt hd.2)
    have hnew : weakReserve fresh none desiredSize = weakReserve fresh (some (weakStorageNew fresh)) desiredSize := by
      have hsize : (weakStorageNew fresh).size = 0 := rfl
      simp only [weakReserve, hcap, hd.1, any_none, any_some, hsize, Nat.le_zero, decide_false,
        getD_none, getD_some, Bool.or_self, Bool.false_eq_true, if_false]
    rw [hnew]
    have hI := hr.storage fresh
    rw [he] at hI
    exact hsome _ hI

theorem retain (keep : MalValue → Bool) :
    ∃ entries', weakRetain fresh keep entries = some (entries', (l.filter fun p => !keep p.1).length) ∧
      Represents registered entries' (keptRows keep l) := by
  have hheld : ∀ p ∈ keptRows keep l, weakKeyCanBeHeld registered p.1 = true :=
    fun p hp => hr.held p (List.mem_of_mem_filter hp)
  cases he : entries with
  | none => rw [hr.empty he]; exact ⟨none, rfl, represents_none registered⟩
  | some s =>
    obtain ⟨t, ht, hI⟩ := weakRetain_spec (hr.inv s he) fresh keep
    have hremoved : l.length - (keptRows keep l).length = (l.filter fun p => !keep p.1).length := by
      have hlen := List.length_eq_length_filter_add (l := l) fun p => keep p.1
      rw [keptRows]
      omega
    rw [hremoved] at ht
    exact ⟨some t, ht, represents_some hI hheld⟩

end

end Represents

end Represents

/-! ## Calls of a WeakMap -/

inductive WeakMapOp where
  | set (key value : MalValue)
  | getOrInsert (key value : MalValue)
  | lookup (key : MalValue)
  | get (key : MalValue)
  | has (key : MalValue)
  | delete (key : MalValue)
  | reserve (desiredSize : ℕ)
  | retain (keep : MalValue → Bool)

inductive WeakOutput where
  | done
  | value (value : MalValue)
  | found (value : Option MalValue)
  | present (found : Bool)
  | reserved (ok : Bool)
  | removed (count : ℕ)
  deriving DecidableEq

section Calls

variable (registered : MalValue → Bool)

def weakMapStep (map : MalWeakMapObject) (fresh : ℕ → MalValue × MalValue) :
    WeakMapOp → Option (MalWeakMapObject × WeakOutput)
  | .set key value => (weakMapObjectSet registered fresh map key value).map (·, .done)
  | .getOrInsert key value =>
    (weakMapObjectGetOrInsert registered fresh map key value).map fun (map, value) => (map, .value value)
  | .lookup key => (weakMapObjectLookup registered map key).map fun value => (map, .found value)
  | .get key => (weakMapObjectGet registered map key).map fun value => (map, .value value)
  | .has key => (weakMapObjectHas registered map key).map fun found => (map, .present found)
  | .delete key => (weakMapObjectDelete registered fresh map key).map fun (map, found) => (map, .present found)
  | .reserve desiredSize => (weakMapObjectReserve fresh map desiredSize).map fun (map, ok) => (map, .reserved ok)
  | .retain keep => (weakMapStorageRetain fresh map keep).map fun (map, count) => (map, .removed count)

def weakMapSpec (l : List (MalValue × MalValue)) : WeakMapOp → List (MalValue × MalValue) × WeakOutput
  | .set key value => (Rows.insert l key value, .done)
  | .getOrInsert key value =>
    match Rows.lookup l key with
    | some value => (l, .value value)
    | none => (Rows.insert l key value, .value value)
  | .lookup key => (l, .found (Rows.lookup l key))
  | .get key => (l, .value ((Rows.lookup l key).getD valueUndefined))
  | .has key => (l, .present (contains l key))
  | .delete key => (Rows.erase l key, .present (contains l key))
  | .reserve desiredSize => (l, .reserved (decide (desiredSize ≤ memberLimit)))
  | .retain keep => (l.filter fun p => keep p.1, .removed (l.filter fun p => !keep p.1).length)

/-- an insertion is of a key that can be held weakly, and below the limit that int32 capacities set -/
def WeakMapCallOk (map : MalWeakMapObject) : WeakMapOp → Prop
  | .set key _ | .getOrInsert key _ => weakKeyCanBeHeld registered key = true ∧ weakMapObjectSize map < memberLimit
  | .lookup _ | .get _ | .has _ | .delete _ | .reserve _ | .retain _ => True

variable {registered} {map : MalWeakMapObject} {l : List (MalValue × MalValue)}

theorem map_withValue_upsertRows (l : List (MalValue × MalValue)) (key value : MalValue) :
    (upsertRows valueUndefined l key).map (withValue key value) = Rows.insert l key value := by
  rw [upsertRows, Rows.insert]
  split_ifs with hc
  · rfl
  rw [List.map_append, List.map_singleton, withValue, if_pos rfl]
  congr 1
  rw [contains_iff] at hc
  refine (List.map_congr_left fun p hp => if_neg ?_).trans (List.map_id l)
  rintro rfl
  exact hc (List.mem_map_of_mem hp)

section

variable (hr : Represents registered map.entries l) (fresh : ℕ → MalValue × MalValue)
include hr

theorem held_insert {key : MalValue} (hk : weakKeyCanBeHeld registered key = true) (value : MalValue) :
    ∀ p ∈ Rows.insert l key value, weakKeyCanBeHeld registered p.1 = true := by
  intro p hp
  have hmem : p.1 ∈ (Rows.insert l key value).map Prod.fst := List.mem_map_of_mem hp
  have hkeys : p.1 ∈ l.map Prod.fst ∨ p.1 = key := by
    cases hc : contains l key with
    | true => exact .inl (keys_insert_of_contains value hc ▸ hmem)
    | false =>
      rw [keys_insert_of_not_contains value hc, List.mem_append, List.mem_singleton] at hmem
      exact hmem
  rcases hkeys with h | h
  · obtain ⟨q, hq, hqp⟩ := List.mem_map.1 h
    exact hqp ▸ hr.held q hq
  · exact h ▸ hk

/-- **Store.** `preserve` keeps the value of a key that is there. -/
theorem weakMapStore_spec {key : MalValue} (hk : weakKeyCanBeHeld registered key = true)
    (hsize : weakMapObjectSize map < memberLimit) (value : MalValue) (preserve : Bool) :
    ∃ map', weakMapStore registered fresh map key value preserve =
        some (map', if contains l key && preserve then (Rows.lookup l key).getD value else value) ∧
      Represents registered map'.entries (if contains l key && preserve then l else Rows.insert l key value) := by
  have hlimit : l.length + 1 ≤ memberLimit := by
    rw [weakMapObjectSize, hr.size] at hsize
    exact hsize
  obtain ⟨t, slot, hups, hinv, hlt, hlive, hkey⟩ := weakUpsert_spec (hr.storage fresh) fresh valueUndefined key hlimit
  rw [weakMapStore, hk, hups]
  simp only [Bool.not_true, Bool.false_eq_true, if_false, map_some, Bool.not_not]
  split_ifs with hkeep
  · -- the key is there and keeps its value
    rw [Bool.and_eq_true] at hkeep
    rw [upsertRows, if_pos hkeep.1] at hinv
    have hvalue := lookup_of_mem hinv.nodup (hinv.row_mem hlt hlive)
    rw [hkey] at hvalue
    exact ⟨_, by rw [hvalue]; rfl, represents_some hinv hr.held⟩
  · refine ⟨_, rfl, represents_some ?_ (held_insert hr hk value)⟩
    have hset := weakSetValue_spec hinv hlt hlive value
    rwa [hkey, map_withValue_upsertRows] at hset

theorem weakMapObjectLookup_spec (key : MalValue) :
    weakMapObjectLookup registered map key = some (Rows.lookup l key) := by
  obtain ⟨slot, hlookup, hsome, hvalue⟩ := hr.lookup key
  rw [weakMapObjectLookup, hlookup, map_some, some.injEq]
  cases slot with
  | none =>
    rw [isSome_none, contains, eq_comm, isSome_eq_false_iff, isNone_iff_eq_none] at hsome
    rw [hsome]
    cases map.entries <;> rfl
  | some i =>
    cases he : map.entries with
    | none => rw [hr.empty he] at hsome; cases hsome
    | some s => exact (hvalue s i he rfl).symm

/-- **One call** of a WeakMap. -/
theorem weakMapStep_represents {op : WeakMapOp} (hop : WeakMapCallOk registered map op) :
    ∃ map', weakMapStep registered map fresh op = some (map', (weakMapSpec l op).2) ∧
      Represents registered map'.entries (weakMapSpec l op).1 := by
  cases op with
  | set key value =>
    obtain ⟨map', hstore, hr'⟩ := weakMapStore_spec hr fresh hop.1 hop.2 value false
    simp only [Bool.and_false] at hstore hr'
    exact ⟨map', by rw [weakMapStep, weakMapObjectSet, hstore]; rfl, hr'⟩
  | getOrInsert key value =>
    obtain ⟨map', hstore, hr'⟩ := weakMapStore_spec hr fresh hop.1 hop.2 value true
    refine ⟨map', ?_⟩
    rw [weakMapStep, weakMapObjectGetOrInsert, hstore, weakMapSpec]
    cases hl : Rows.lookup l key with
    | none =>
      have hc : contains l key = false := by rw [contains, hl]; rfl
      rw [hc] at hr' ⊢
      exact ⟨rfl, hr'⟩
    | some v =>
      have hc : contains l key = true := by rw [contains, hl]; rfl
      rw [hc] at hr' ⊢
      exact ⟨rfl, hr'⟩
  | lookup key => exact ⟨map, by rw [weakMapStep, weakMapObjectLookup_spec hr]; rfl, hr⟩
  | get key => exact ⟨map, by rw [weakMapStep, weakMapObjectGet, weakMapObjectLookup_spec hr]; rfl, hr⟩
  | has key =>
    obtain ⟨slot, hlookup, hsome, -⟩ := hr.lookup key
    exact ⟨map, by rw [weakMapStep, weakMapObjectHas, hlookup, weakMapSpec, ← hsome]; rfl, hr⟩
  | delete key =>
    obtain ⟨entries', hdel, hr'⟩ := hr.delete fresh key
    exact ⟨⟨entries'⟩, by rw [weakMapStep, weakMapObjectDelete, hdel]; rfl, hr'⟩
  | reserve desiredSize =>
    obtain ⟨entries', hres, hr'⟩ := hr.reserve fresh desiredSize
    exact ⟨⟨entries'⟩, by rw [weakMapStep, weakMapObjectReserve, hres]; rfl, hr'⟩
  | retain keep =>
    obtain ⟨entries', hret, hr'⟩ := hr.retain fresh keep
    exact ⟨⟨entries'⟩, by rw [weakMapStep, weakMapStorageRetain, hret]; rfl, hr'⟩

end

end Calls

/-! ## Calls of a WeakSet -/

inductive WeakSetOp where
  | add (key : MalValue)
  | has (key : MalValue)
  | delete (key : MalValue)
  | reserve (desiredSize : ℕ)
  | retain (keep : MalValue → Bool)

section SetCalls

variable (registered : MalValue → Bool)

def weakSetStep (set : MalWeakSetObject) (fresh : ℕ → MalValue × Unit) : WeakSetOp → Option (MalWeakSetObject × WeakOutput)
  | .add key => (weakSetObjectAdd registered fresh set key).map (·, .done)
  | .has key => (weakSetObjectHas registered set key).map fun found => (set, .present found)
  | .delete key => (weakSetObjectDelete registered fresh set key).map fun (set, found) => (set, .present found)
  | .reserve desiredSize => (weakSetObjectReserve fresh set desiredSize).map fun (set, ok) => (set, .reserved ok)
  | .retain keep => (weakSetStorageRetain fresh set keep).map fun (set, count) => (set, .removed count)

def weakSetSpec (l : List (MalValue × Unit)) : WeakSetOp → List (MalValue × Unit) × WeakOutput
  | .add key => (if contains l key then l else l ++ [(key, ())], .done)
  | .has key => (l, .present (contains l key))
  | .delete key => (Rows.erase l key, .present (contains l key))
  | .reserve desiredSize => (l, .reserved (decide (desiredSize ≤ memberLimit)))
  | .retain keep => (l.filter fun p => keep p.1, .removed (l.filter fun p => !keep p.1).length)

def WeakSetCallOk (set : MalWeakSetObject) : WeakSetOp → Prop
  | .add key => weakKeyCanBeHeld registered key = true ∧ weakSetObjectSize set < memberLimit
  | .has _ | .delete _ | .reserve _ | .retain _ => True

variable {registered} {set : MalWeakSetObject} {l : List (MalValue × Unit)}

/-- **One call** of a WeakSet. -/
theorem weakSetStep_represents (hr : Represents registered set.entries l) (fresh : ℕ → MalValue × Unit)
    {op : WeakSetOp} (hop : WeakSetCallOk registered set op) :
    ∃ set', weakSetStep registered set fresh op = some (set', (weakSetSpec l op).2) ∧
      Represents registered set'.entries (weakSetSpec l op).1 := by
  cases op with
  | add key =>
    obtain ⟨hk, hsize⟩ := hop
    have hlimit : l.length + 1 ≤ memberLimit := by
      rw [weakSetObjectSize, hr.size] at hsize
      exact hsize
    obtain ⟨t, slot, hups, hup⟩ := weakUpsert_spec (hr.storage fresh) fresh () key hlimit
    refine ⟨⟨some t⟩, by rw [weakSetStep, weakSetObjectAdd, hk, hups]; rfl, represents_some hup.inv fun p hp => ?_⟩
    change p ∈ (if contains l key then l else l ++ [(key, ())]) at hp
    split_ifs at hp with hc
    · exact hr.held p hp
    rcases List.mem_append.1 hp with h | h
    · exact hr.held p h
    · rw [List.mem_singleton.1 h]
      exact hk
  | has key =>
    obtain ⟨slot, hlookup, hsome, -⟩ := hr.lookup key
    exact ⟨set, by rw [weakSetStep, weakSetObjectHas, hlookup, weakSetSpec, ← hsome]; rfl, hr⟩
  | delete key =>
    obtain ⟨entries', hdel, hr'⟩ := hr.delete fresh key
    exact ⟨⟨entries'⟩, by rw [weakSetStep, weakSetObjectDelete, hdel]; rfl, hr'⟩
  | reserve desiredSize =>
    obtain ⟨entries', hres, hr'⟩ := hr.reserve fresh desiredSize
    exact ⟨⟨entries'⟩, by rw [weakSetStep, weakSetObjectReserve, hres]; rfl, hr'⟩
  | retain keep =>
    obtain ⟨entries', hret, hr'⟩ := hr.retain fresh keep
    exact ⟨⟨entries'⟩, by rw [weakSetStep, weakSetStorageRetain, hret]; rfl, hr'⟩

end SetCalls

/-! ## Sequences of calls -/

section Run

variable {Obj Fresh Op Row : Type} (step : Obj → Fresh → Op → Option (Obj × WeakOutput))
  (spec : List Row → Op → List Row × WeakOutput) (ok : Obj → Op → Prop)

def weakRun : Obj → List (Fresh × Op) → Option (Obj × List WeakOutput)
  | obj, [] => some (obj, [])
  | obj, (fresh, op) :: calls => do
    let (obj, output) ← step obj fresh op
    let (obj, outputs) ← weakRun obj calls
    return (obj, output :: outputs)

def weakSpecRun : List Row → List (Fresh × Op) → List Row × List WeakOutput
  | l, [] => (l, [])
  | l, (_, op) :: calls =>
    let (l, output) := spec l op
    let (l, outputs) := weakSpecRun l calls
    (l, output :: outputs)

def WeakWithin : Obj → List (Fresh × Op) → Prop
  | _, [] => True
  | obj, (fresh, op) :: calls =>
    ok obj op ∧ ∀ obj' output, step obj fresh op = some (obj', output) → WeakWithin obj' calls

variable {step spec ok} (Rep : Obj → List Row → Prop)

theorem weakRun_represents (hstep : ∀ obj l fresh op, Rep obj l → ok obj op →
      ∃ obj', step obj fresh op = some (obj', (spec l op).2) ∧ Rep obj' (spec l op).1) :
    ∀ (calls : List (Fresh × Op)) {obj : Obj} {l : List Row}, Rep obj l → WeakWithin step ok obj calls →
      ∃ obj', weakRun step obj calls = some (obj', (weakSpecRun spec l calls).2) ∧
        Rep obj' (weakSpecRun spec l calls).1 := by
  intro calls
  induction calls with
  | nil => exact fun hr _ => ⟨_, rfl, hr⟩
  | cons call calls ih =>
    intro obj l hr hw
    obtain ⟨fresh, op⟩ := call
    obtain ⟨hop, hrest⟩ := hw
    obtain ⟨obj', hcall, hr'⟩ := hstep obj l fresh op hr hop
    obtain ⟨obj'', hrun, hr''⟩ := ih hr' (hrest _ _ hcall)
    refine ⟨obj'', ?_, hr''⟩
    rw [weakRun, hcall]
    simp only [bind_eq_bind, bind_some, hrun]
    rfl

end Run

/-- **Weak storage refines a finite partial map.** Every sequence of calls from an empty collection returns; each call
returns what it returns on the partial map, so a lookup finds the value the map has and `retain` removes the keys that are
not kept and says how many they were; the live rows are the map's pairs, and size is their number. -/
theorem weakRun_refines (registered : MalValue → Bool) :
    (∀ calls, WeakWithin (weakMapStep registered) (WeakMapCallOk registered) ⟨none⟩ calls →
      ∃ map l, weakRun (weakMapStep registered) ⟨none⟩ calls = some (map, (weakSpecRun weakMapSpec [] calls).2) ∧
        l = (weakSpecRun weakMapSpec [] calls).1 ∧ (l.map Prod.fst).Nodup ∧ (rowsOf map.entries).Perm l ∧
        weakMapObjectSize map = (rowsOf map.entries).length) ∧
    (∀ calls, WeakWithin (weakSetStep registered) (WeakSetCallOk registered) ⟨none⟩ calls →
      ∃ set l, weakRun (weakSetStep registered) ⟨none⟩ calls = some (set, (weakSpecRun weakSetSpec [] calls).2) ∧
        l = (weakSpecRun weakSetSpec [] calls).1 ∧ (l.map Prod.fst).Nodup ∧ (rowsOf set.entries).Perm l ∧
        weakSetObjectSize set = (rowsOf set.entries).length) := by
  constructor
  · intro calls hw
    obtain ⟨map, hrun, hr⟩ := weakRun_represents (fun map l => Represents registered map.entries l)
      (fun map l fresh op hr hop => weakMapStep_represents hr fresh hop) calls (represents_none registered) hw
    exact ⟨map, _, hrun, rfl, hr.nodup, hr.rows, by rw [weakMapObjectSize, hr.size, hr.rows.length_eq]⟩
  · intro calls hw
    obtain ⟨set, hrun, hr⟩ := weakRun_represents (fun set l => Represents registered set.entries l)
      (fun set l fresh op hr hop => weakSetStep_represents hr fresh hop) calls (represents_none registered) hw
    exact ⟨set, _, hrun, rfl, hr.nodup, hr.rows, by rw [weakSetObjectSize, hr.size, hr.rows.length_eq]⟩

/-- an object key that is looked up, dropped by the collector and looked up again; one that is added twice and deleted -/
theorem weakRun_refines_object : let key : MalValue := 0xFFFD000000000010#64
    let fresh : ℕ → MalValue × MalValue := fun _ => (0, 0)
    (∃ map, weakRun (weakMapStep fun _ => false) ⟨none⟩
        [(fresh, .set key 7), (fresh, .lookup key), (fresh, .retain fun k => k != key), (fresh, .lookup key)] =
      some (map, [.done, .found (some 7), .removed 1, .found none]) ∧ weakMapObjectSize map = 0) ∧
    (∃ set, weakRun (weakSetStep fun _ => false) ⟨none⟩
        [(fun _ => (0, ()), .add key), (fun _ => (0, ()), .add key), (fun _ => (0, ()), .delete key)] =
      some (set, [.done, .done, .present true]) ∧ weakSetObjectSize set = 0) := by
  intro key fresh
  constructor
  · obtain ⟨map, l, hrun, hl, -, hrows, hsize⟩ := (weakRun_refines fun _ => false).1
      [(fresh, .set key 7), (fresh, .lookup key), (fresh, .retain fun k => k != key), (fresh, .lookup key)]
      ⟨⟨by decide, by decide⟩, fun _ _ _ => ⟨trivial, fun _ _ _ => ⟨trivial, fun _ _ _ => ⟨trivial, fun _ _ _ => trivial⟩⟩⟩⟩
    have hspec : l = [] := hl.trans (by decide)
    refine ⟨map, hrun, ?_⟩
    rw [hsize, hrows.length_eq, hspec]
    rfl
  · -- the size after the first call, which the limit of the second is about
    have hfirst : (weakSetStep (fun _ => false) ⟨none⟩ (fun _ => (0, ())) (.add key)).map
        (fun r => weakSetObjectSize r.1) = some 1 := by decide
    obtain ⟨set, l, hrun, hl, -, hrows, hsize⟩ := (weakRun_refines fun _ => false).2
      [(fun _ => (0, ()), .add key), (fun _ => (0, ()), .add key), (fun _ => (0, ()), .delete key)]
      ⟨⟨by decide, by decide⟩, fun set _ h => ⟨⟨by decide, by
        rw [h, map_some, some.injEq] at hfirst
        rw [hfirst]
        decide⟩, fun _ _ _ => ⟨trivial, fun _ _ _ => trivial⟩⟩⟩
    have hspec : l = [] := hl.trans (by decide)
    refine ⟨set, hrun, ?_⟩
    rw [hsize, hrows.length_eq, hspec]
    rfl

end Maligator.Weak
