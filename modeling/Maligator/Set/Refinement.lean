/-
Set storage refines the ECMAScript Set.

`SetOp` is a call of the Set interface, `setStep` what the storage does and returns, `specStep` what an insertion-ordered
list without duplicates does and returns. `Within` says that a sequence of calls stays in the domain of the interface:
canonical members, and sizes below the limits that int32 capacities set.

`setStep_effect`: one call within the domain returns, returns what the list returns, and changes the data as specified.
-/
import Maligator.Set.Operations

namespace Maligator.SetObject

open HashIndex Prod Rows LiveList KeyRows Collection

/-! ## Calls -/

structure CallMemory where
  fresh : MalSetPayload
  freshSlots : ℕ → ℕ

inductive SetOp where
  | add (key : MalValue)
  | has (key : MalValue)
  | delete (key : MalValue)
  | clear
  | reserve (desiredSize : ℕ)
  | compact
  | pin
  | unpin

inductive SetOutput where
  | done
  | present (found : Bool)
  | reserved (ok : Bool)
  deriving DecidableEq

def CallMemory.env (memory : CallMemory) (env : KeyEnv) : SetEnv := ⟨env, memory.fresh, memory.freshSlots⟩

def setStep (env : KeyEnv) (set : MalSetObject) (memory : CallMemory) : SetOp → Option (MalSetObject × SetOutput)
  | .add key => (setObjectAdd (memory.env env) set key).map (·, .done)
  | .has key => (setObjectHas env set key).map fun found => (set, .present found)
  | .delete key => (setObjectDelete (memory.env env) set key).map fun (set, found) => (set, .present found)
  | .clear => (setObjectClear (memory.env env) set).map (·, .done)
  | .reserve desiredSize =>
    (setObjectReserve (memory.env env) set desiredSize).map fun (set, ok) => (set, .reserved ok)
  | .compact => (setObjectCompact (memory.env env) set).map (·, .done)
  | .pin => (setStoragePin set).map (·, .done)
  | .unpin => (setStorageUnpin set).map (·, .done)

def specStep (env : KeyEnv) (l : List CollectionKey) : SetOp → List CollectionKey × SetOutput
  | .add key => (if env.den key ∈ l then l else l ++ [env.den key], .done)
  | .has key => (l, .present (decide (env.den key ∈ l)))
  | .delete key => (l.filter (· ≠ env.den key), .present (decide (env.den key ∈ l)))
  | .clear => ([], .done)
  | .reserve _ => (l, .reserved true)
  | .compact | .pin | .unpin => (l, .done)

def storageOf (set : MalSetObject) : MalSetStorage :=
  set.entries.getD ⟨none, ⟨0, fun _ => hashEmpty, fun _ => 0⟩, 0, 0, setSmallCapacity, 0, 0, 0, .empty, false, fun _ => 0⟩

def CallOk (set : MalSetObject) : SetOp → Prop
  | .add key => Canonical key ∧ SetRoom (storageOf set)
  | .has key | .delete key => Canonical key
  | .reserve desiredSize => ReserveRoom (storageOf set) desiredSize
  | .pin => (storageOf set).pins ≠ uint32Max
  | .clear | .compact | .unpin => True

/-! ## One call -/

def specData (env : KeyEnv) (data : List (Option (CollectionKey × Unit))) : SetOp → List (Option (CollectionKey × Unit))
  | .add key => write data (env.den key) ()
  | .delete key => remove data (env.den key)
  | .clear => removeAll data
  | .has _ | .reserve _ | .compact | .pin | .unpin => data

def pinsAfter (set : MalSetObject) : SetOp → ℕ
  | .pin => (storageOf set).pins + set.entries.isSome.toNat
  | .unpin => (storageOf set).pins - 1
  | _ => (storageOf set).pins

theorem contains_eq_mem (l : List (CollectionKey × Unit)) (k : CollectionKey) :
    contains l k = decide (k ∈ l.map fst) := by
  rw [Bool.eq_iff_iff, contains_iff, decide_eq_true_eq]

variable {env : KeyEnv} {set : MalSetObject}

theorem live_specData {data : List (Option (CollectionKey × Unit))} (hu : ((live data).map fst).Nodup) (op : SetOp) :
    (live (specData env data op)).map fst = (specStep env ((live data).map fst) op).1 := by
  cases op with
  | add key =>
    rw [specData, live_write hu, specStep]
    cases hc : contains (live data) (env.den key) with
    | true => rw [keys_insert_of_contains () hc, if_pos (contains_iff.1 hc)]
    | false =>
      rw [keys_insert_of_not_contains () hc, if_neg]
      rw [← contains_iff, hc]
      simp
  | delete key =>
    rw [specData, live_remove hu, specStep, List.filter_map]
    rfl
  | clear => rw [specData, live_removeAll]; rfl
  | has | reserve | compact | pin | unpin => rfl

theorem room_iff (set : MalSetObject) (memory : CallMemory) (env : KeyEnv) :
    (SetRoom (storageOf set) → SetRoom (setObjectStorage (memory.env env) set)) ∧
    (∀ n, ReserveRoom (storageOf set) n → ReserveRoom (setObjectStorage (memory.env env) set) n) ∧
    (setObjectStorage (memory.env env) set).pins = (storageOf set).pins := by
  unfold storageOf setObjectStorage
  cases set.entries with
  | none => exact ⟨fun h => ⟨h.members, h.rows⟩, fun n h => ⟨h.members, h.rows⟩, rfl⟩
  | some s => exact ⟨id, fun _ => id, rfl⟩

theorem storage_spec (memory : CallMemory) (hI : ∀ s, set.entries = some s → SetInv env s) :
    SetInv (memory.env env) (setObjectStorage (memory.env env) set) ∧
      set.entries.elim [] (setContents env) = setContents env (setObjectStorage (memory.env env) set) := by
  unfold setObjectStorage
  cases he : set.entries with
  | none => exact ⟨setInv_storageNew (memory.env env), rfl⟩
  | some s => exact ⟨hI s he, rfl⟩

/-- **Leaf and general lookup agree**, and decide membership. -/
theorem setObjectHasCanonical_spec (hI : ∀ s, set.entries = some s → SetInv env s)
    {key : MalValue} (hc : Canonical key) :
    setObjectHasCanonical env set key = some (contains (set.entries.elim [] (setContents env)) (env.den key)) ∧
      setStorageHas env set.entries key = some (contains (set.entries.elim [] (setContents env)) (env.den key)) := by
  unfold setObjectHasCanonical
  cases he : set.entries with
  | none => exact ⟨rfl, rfl⟩
  | some s =>
    have hgeneral := setStorageHas_spec (hI s he) hc
    rw [contents_setStore] at hgeneral
    refine ⟨?_, hgeneral⟩
    dsimp only
    split_ifs with hbits
    · obtain ⟨found, hfound, hans⟩ := setProbeBits_spec (hI s he) hc hbits
      rw [hfound, Option.elim_some, ← contents_setStore, Store.contains_of_bucket hans]
      rfl
    · exact hgeneral

structure StepEffect (env : KeyEnv) (memory : CallMemory) (set set' : MalSetObject) (op : SetOp) : Prop where
  inv : SetInv env (setObjectStorage (memory.env env) set')
  contents : setContents env (setObjectStorage (memory.env env) set') =
    live (specData env (setData env (setObjectStorage (memory.env env) set)) op)
  data : (storageOf set).pins ≠ 0 → setData env (setObjectStorage (memory.env env) set') =
    specData env (setData env (setObjectStorage (memory.env env) set)) op
  pins : (setObjectStorage (memory.env env) set').pins = pinsAfter set op

theorem SetEffect.step {memory : CallMemory} {set' : MalSetObject} {op : SetOp}
    (h : SetEffect env (setObjectStorage (memory.env env) set) (setObjectStorage (memory.env env) set') (specData env · op))
    (hp : pinsAfter set op = (storageOf set).pins) : StepEffect env memory set set' op := by
  have hpins := (room_iff set memory env).2.2
  obtain ⟨hinv, hcont, hdata, hkeep⟩ := h
  rw [contents_setStore, data_setStore] at hcont
  rw [data_setStore, data_setStore] at hdata
  exact ⟨hinv, hcont, fun hne => hdata fun h => hne (hpins.symm.trans h), hkeep.trans (hpins.trans hp.symm)⟩

theorem setStep_effect (memory : CallMemory)
    (hI : ∀ s, set.entries = some s → SetInv env s) {op : SetOp} (hop : CallOk set op) :
    ∃ set', setStep env set memory op =
        some (set', (specStep env ((set.entries.elim [] (setContents env)).map fst) op).2) ∧
      StepEffect env memory set set' op := by
  obtain ⟨hI', hcont⟩ := storage_spec memory hI
  obtain ⟨hroom, hreserve, hpins⟩ := room_iff set memory env
  cases op with
  | add key =>
    obtain ⟨hc, hr⟩ := hop
    obtain ⟨t, ht, heff⟩ := setObjectAddCanonical_spec hI' (hroom hr) hc
    refine ⟨⟨some t⟩, ?_, SetEffect.step heff rfl⟩
    rw [setStep, setObjectAdd, collectionCanonicalValue_of_canonical hc, ht]
    rfl
  | has key =>
    refine ⟨set, ?_, SetEffect.step ⟨hI', .refl _ _⟩ rfl⟩
    rw [setStep, setObjectHas, collectionCanonicalValue_of_canonical hop, (setObjectHasCanonical_spec hI hop).1,
      contains_eq_mem]
    rfl
  | delete key =>
    obtain ⟨set', hdel, heff⟩ := setObjectDeleteCanonical_spec hI' hop
    refine ⟨set', ?_, SetEffect.step heff rfl⟩
    rw [setStep, setObjectDelete, collectionCanonicalValue_of_canonical hop, hdel, contains_eq_mem, hcont,
      contents_setStore]
    rfl
  | clear =>
    obtain ⟨set', hclear, heff⟩ := setObjectClear_spec hI'
    exact ⟨set', by rw [setStep, hclear]; rfl, SetEffect.step heff rfl⟩
  | reserve desiredSize =>
    obtain ⟨set', hres, heff⟩ := setObjectReserve_spec hI' (hreserve _ hop)
    exact ⟨set', by rw [setStep, hres]; rfl, SetEffect.step heff rfl⟩
  | compact =>
    obtain ⟨set', hcomp, heff⟩ := setObjectCompact_spec hI'
    exact ⟨set', by rw [setStep, hcomp]; rfl, SetEffect.step heff rfl⟩
  | pin =>
    obtain ⟨set', hpin, hinv, hdata, hp⟩ := setStoragePin_spec hI' (hpins ▸ hop)
    exact ⟨set', by rw [setStep, hpin]; rfl, hinv, (live_setData _ _).symm.trans (congrArg live hdata), fun _ => hdata,
      by rw [hp, hpins]; rfl⟩
  | unpin =>
    obtain ⟨set', hpin, hinv, hdata, hp⟩ := setStorageUnpin_spec hI'
    exact ⟨set', by rw [setStep, hpin]; rfl, hinv, (live_setData _ _).symm.trans (congrArg live hdata), fun _ => hdata,
      by rw [hp, hpins]; rfl⟩

/-! ## Sequences of calls -/

def setRun (env : KeyEnv) : MalSetObject → List (CallMemory × SetOp) → Option (MalSetObject × List SetOutput)
  | set, [] => some (set, [])
  | set, (memory, op) :: calls => do
    let (set, output) ← setStep env set memory op
    let (set, outputs) ← setRun env set calls
    return (set, output :: outputs)

def specRun (env : KeyEnv) : List CollectionKey → List (CallMemory × SetOp) → List CollectionKey × List SetOutput
  | l, [] => (l, [])
  | l, (_, op) :: calls =>
    let (l, output) := specStep env l op
    let (l, outputs) := specRun env l calls
    (l, output :: outputs)

def Within (env : KeyEnv) : MalSetObject → List (CallMemory × SetOp) → Prop
  | _, [] => True
  | set, (memory, op) :: calls =>
    CallOk set op ∧ ∀ set' output, setStep env set memory op = some (set', output) → Within env set' calls

/-- the abstraction: the storage, if there is one, is well formed and its members are the list -/
structure Represents (env : KeyEnv) (set : MalSetObject) (l : List CollectionKey) : Prop where
  inv : ∀ s, set.entries = some s → SetInv env s
  contents : (set.entries.elim [] (setContents env)).map fst = l

theorem setStep_represents {l : List CollectionKey} (hr : Represents env set l)
    (memory : CallMemory) {op : SetOp} (hop : CallOk set op) :
    ∃ set', setStep env set memory op = some (set', (specStep env l op).2) ∧
      Represents env set' (specStep env l op).1 := by
  obtain ⟨set', hstep, heff⟩ := setStep_effect memory hr.inv hop
  rw [hr.contents] at hstep
  have hinv : ∀ s, set'.entries = some s → SetInv env s := fun s hs => by
    rw [← setObjectStorage_of_entries (memory.env env) hs]
    exact heff.inv
  obtain ⟨hI, hcont⟩ := storage_spec memory hr.inv
  have hu : ((live (setData env (setObjectStorage (memory.env env) set))).map fst).Nodup := by
    rw [live_setData, ← contents_setStore]
    exact hI.nodup
  refine ⟨set', hstep, hinv, ?_⟩
  rw [(storage_spec memory hinv).2, heff.contents, live_specData hu, live_setData, ← hcont, hr.contents]

theorem setRun_represents : ∀ (calls : List (CallMemory × SetOp)) {set : MalSetObject}
    {l : List CollectionKey}, Represents env set l → Within env set calls →
    ∃ set', setRun env set calls = some (set', (specRun env l calls).2) ∧
      Represents env set' (specRun env l calls).1 := by
  intro calls
  induction calls with
  | nil => exact fun hr _ => ⟨_, rfl, hr⟩
  | cons call calls ih =>
    intro set l hr hw
    obtain ⟨memory, op⟩ := call
    obtain ⟨hop, hrest⟩ := hw
    obtain ⟨set', hstep, hr'⟩ := setStep_represents hr memory hop
    obtain ⟨set'', hrun, hr''⟩ := ih hr' (hrest _ _ hstep)
    refine ⟨set'', ?_, hr''⟩
    rw [setRun, hstep]
    simp only [Option.bind_eq_bind, Option.bind_some, hrun]
    rfl

/-- **Set storage refines the ECMAScript Set.** Every sequence of calls from an empty Set returns, each call returns what it
returns on the insertion-ordered list without duplicates, and size and iteration are the list's. In the state reached the
leaf lookup answers as the general one does for every member, and the leaf add leaves the same members as the general one. -/
theorem setRun_refines (env : KeyEnv) (calls : List (CallMemory × SetOp)) (hw : Within env ⟨none⟩ calls) :
    ∃ set, setRun env ⟨none⟩ calls = some (set, (specRun env [] calls).2) ∧ (specRun env [] calls).1.Nodup ∧
      setObjectSize set = (specRun env [] calls).1.length ∧
      (setIterAll set.entries ((storageOf set).count + 1) 0).map env.den = (specRun env [] calls).1 ∧
      (∀ key, Canonical key → setObjectHasCanonical env set key = setStorageHas env set.entries key) ∧
      (∀ key (memory : CallMemory), Canonical key → SetRoom (storageOf set) →
        ∃ s t, setObjectAddCanonical (memory.env env) set key = some ⟨some s⟩ ∧
          setObjectAddGeneral (memory.env env) set key = some ⟨some t⟩ ∧ setContents env s = setContents env t) := by
  have hempty : Represents env ⟨none⟩ [] := ⟨fun s hs => by simp at hs, rfl⟩
  obtain ⟨set, hrun, hr⟩ := setRun_represents calls hempty hw
  have hleaf : ∀ key, Canonical key → setObjectHasCanonical env set key = setStorageHas env set.entries key := by
    intro key hc
    obtain ⟨h1, h2⟩ := setObjectHasCanonical_spec hr.inv hc
    rw [h1, h2]
  have hadd : ∀ key (memory : CallMemory), Canonical key → SetRoom (storageOf set) →
      ∃ s t, setObjectAddCanonical (memory.env env) set key = some ⟨some s⟩ ∧
        setObjectAddGeneral (memory.env env) set key = some ⟨some t⟩ ∧ setContents env s = setContents env t := by
    intro key memory hc hroom
    obtain ⟨hI, -⟩ := storage_spec memory hr.inv
    have hroom' := (room_iff set memory env).1 hroom
    obtain ⟨s, hs, hes⟩ := setObjectAddCanonical_spec hI hroom' hc
    obtain ⟨t, ht, het⟩ := setObjectAddGeneral_spec hI hroom' hc
    refine ⟨s, t, hs, ht, ?_⟩
    rw [← contents_setStore, ← contents_setStore]
    exact hes.2.contents.trans het.2.contents.symm
  refine ⟨set, hrun, ?_⟩
  generalize (specRun env [] calls).1 = l at hr
  have hc := hr.contents
  cases he : set.entries with
  | none =>
    rw [he] at hc hleaf
    subst hc
    exact ⟨List.nodup_nil, by rw [setObjectSize, he]; rfl, rfl, hleaf, hadd⟩
  | some s =>
    have hI := hr.inv s he
    rw [he] at hc hleaf
    change (setContents env s).map fst = l at hc
    subst hc
    have hs : storageOf set = s := by rw [storageOf, he]; rfl
    have hiter := congrArg (List.map fst) (setIterAll_spec env s)
    rw [List.map_map] at hiter
    rw [← contents_setStore] at hiter ⊢
    refine ⟨hI.nodup, ?_, by rw [hs]; exact hiter, hleaf, hadd⟩
    rw [setObjectSize, he, List.length_map, hI.length]
    rfl

/-- an object added twice, looked up and deleted -/
theorem setRun_refines_object : let env : KeyEnv := ⟨fun _ => [], fun _ => 0, fun _ => 0⟩
    let memory : CallMemory := ⟨⟨fun _ => 0, fun _ => 0, fun _ => 0⟩, fun _ => 0⟩
    let key : MalValue := 0xFFFD000000000010#64
    let calls := [(memory, SetOp.add key), (memory, .add key), (memory, .has key), (memory, .delete key)]
    ∃ set, setRun env ⟨none⟩ calls = some (set, [.done, .done, .present true, .present true]) ∧ setObjectSize set = 0 := by
  intro env memory key calls
  have hc : Canonical key := ⟨by decide, by decide, by decide⟩
  -- the room for the second call
  have hroom : (setStep env ⟨none⟩ memory (.add key)).map (fun r => decide (SetRoom (storageOf r.1))) = some true := by decide
  have hw : Within env ⟨none⟩ calls := by
    refine ⟨⟨hc, by decide, by decide⟩, fun set output h => ⟨⟨hc, ?_⟩, fun _ _ _ =>
      ⟨hc, fun _ _ _ => ⟨hc, fun _ _ _ => trivial⟩⟩⟩⟩
    rw [h, Option.map_some, Option.some.injEq, decide_eq_true_eq] at hroom
    exact hroom
  obtain ⟨set, hrun, -, hsize, -⟩ := setRun_refines env calls hw
  have hout : specRun env [] calls = ([], [.done, .done, .present true, .present true]) := by decide
  rw [hout] at hrun hsize
  exact ⟨set, hrun, hsize⟩

end Maligator.SetObject
