/-
The invariant of Set storage and what its lookups return.

`setRow` is the member at a position, whatever the layout, and `setStore` the storage without its layout.

`setStorageHas_spec`, `setProbeBits_spec`: the general lookup and the leaf lookup both decide membership.
-/
import Maligator.Collection
import Maligator.Set.Storage

namespace Maligator.SetObject

open HashIndex Option Rows LiveList KeyRows Collection

def setRow (storage : MalSetStorage) (i : ℕ) : Option MalValue :=
  if setIsLive storage i then some (setKeyAt storage i) else none

def setContents (env : KeyEnv) (storage : MalSetStorage) : List (CollectionKey × Unit) :=
  members env (setRow storage) storage.count

def setStore (storage : MalSetStorage) : Store Unit where
  row i := (setRow storage i).map (·, ())
  inline := storage.payload = none
  index := storage.index
  size := storage.size
  count := storage.count
  capacity := storage.capacity
  deletedSlots := storage.deletedSlots
  pins := storage.pins
  reserveSize := storage.reserveSize
  domain := storage.domain
  ownerReleased := storage.ownerReleased

/-- **Set invariant.** -/
abbrev SetInv (env : KeyEnv) (storage : MalSetStorage) : Prop := (setStore storage).Inv env

theorem setRow_isSome (storage : MalSetStorage) (i : ℕ) : (setRow storage i).isSome = setIsLive storage i := by
  unfold setRow
  split_ifs with h <;> simp [h]

theorem keys_setStore (storage : MalSetStorage) : (setStore storage).keys = setRow storage := by
  funext i
  rw [Store.keys, setStore, map_map]
  exact congrFun map_id _

theorem contents_setStore (env : KeyEnv) (storage : MalSetStorage) :
    (setStore storage).contents env = setContents env storage := by
  refine entries_congr fun i _ => ?_
  rw [Store.entry, setStore, map_map]
  rfl

variable {s : MalSetStorage} {key : MalValue} {env : KeyEnv}

theorem setRow_of_live {i : ℕ} (h : setIsLive s i = true) : setRow s i = some (setKeyAt s i) := if_pos h

theorem keys_eq_some {i : ℕ} : (setStore s).keys i = some key ↔ setIsLive s i = true ∧ setKeyAt s i = key := by
  rw [keys_setStore, setRow]
  split_ifs with h <;> simp [h]

/-! ## Inline search -/

theorem setSmallKeyEquals_eq (env : KeyEnv) (s : MalSetStorage) (i : ℕ) (key : MalValue) :
    setSmallKeyEquals env s i key = probeEquals env s.domain (s.small i) key := by
  have hbeq : ∀ d : MalKeyDomain, (s.domain == d) = decide (s.domain = d) := fun d => by
    rw [Bool.eq_iff_iff, beq_iff_eq, decide_eq_true_eq]
  unfold setSmallKeyEquals setKeyEqualsSlow probeEquals
  rw [hbeq, hbeq]
  cases s.domain <;> simp

/-- **Inline search**: on a live row the comparison decides key equality, for a key of the domain. -/
theorem setSmallFind_spec (hI : (setStore s).RowsInv env) (hp : s.payload = none) (hk : Fits s.domain key) :
    (setSmallFind env s key).elim ((setStore s).Lacks env key) ((setStore s).HasAt env key) := by
  refine find?_answers fun i hi => ?_
  have hkey : setKeyAt s i = s.small i := by simp [setKeyAt, hp]
  have hiff : ∀ c, (setStore s).keys i = some c →
      (probeEquals env s.domain c key = true ↔ env.den c = env.den key) := fun c hc =>
    probeEquals_iff env (hI.rows.keyOk i hi c hc).2 hk
  rw [Bool.and_eq_true, setSmallKeyEquals_eq, ← hkey]
  constructor
  · rintro ⟨hl, heq⟩
    have hrow := keys_eq_some.2 ⟨hl, rfl⟩
    exact ⟨hi, _, hrow, (hiff _ hrow).1 heq⟩
  · rintro ⟨_, c, hrow, hd⟩
    obtain ⟨hl, rfl⟩ := keys_eq_some.1 hrow
    exact ⟨hl, (hiff _ hrow).2 hd⟩

theorem setSmallHas_eq (env : KeyEnv) (s : MalSetStorage) (key : MalValue) :
    setSmallHas env s key = (setSmallFind env s key).isSome := by
  rw [setSmallHas, setSmallFind, Bool.eq_iff_iff, List.any_eq_true, List.find?_isSome]

/-! ## Hashed search -/

theorem setProbe_eq (env : KeyEnv) (s : MalSetStorage) (key : MalValue) (intKey : BitVec 32) (hash : BitVec 64)
    (insert : Bool) : setProbe env s key intKey hash insert =
      setProbeIn env s (probeDomain s.domain) key (if s.domain = .int32 then intKey else 0) hash insert := by
  unfold setProbe
  cases h : s.domain <;> simp [probeDomain]

/-- **Hashed comparison.** On a live row the probe's test decides key equality. -/
theorem setProbeHit_iff (hI : (setStore s).RowsInv env)
    (hp : s.payload ≠ none) (hc : Canonical key) (hk : Fits s.domain key)
    {intKey : BitVec 32} (hint : s.domain = .int32 → intKey = valueF64ToI32 key) :
    ∀ i < s.count, ∀ c, (setStore s).keys i = some c →
      (setProbeHit env s (probeDomain s.domain) key intKey i = true ↔ env.den c = env.den key) := by
  intro i hi c hrow
  obtain ⟨payload, hpay⟩ := ne_none_iff_exists'.1 hp
  obtain ⟨-, hkey⟩ := keys_eq_some.1 hrow
  have hfit : Fits s.domain c := (hI.rows.keyOk i hi c hrow).2
  by_cases hd : s.domain = .int32
  · have hints : valueFromF64OfI32 (payload.ints i) = c := by simpa [setKeyAt, hpay, hd] using hkey
    rw [← hints, ← int32_eq_iff env (hd ▸ hk) hc, ← hint hd]
    simp [setProbeHit, hpay, hd, probeDomain]
  have hmem : payload.members i = c := by simpa [setKeyAt, hpay, hd] using hkey
  rw [← probeEquals_iff env hfit hk, ← probeEquals_probeDomain]
  simp [setProbeHit, hpay, probeDomain_ne_int32 hd, hmem]

theorem setAcceptsQuery_iff (s : MalSetStorage) (key : MalValue) :
    Fits s.domain key ↔ setAcceptsQuery s key = true := by
  unfold setAcceptsQuery Fits
  cases s.domain <;> simp [acceptsDomain]

theorem setQuery_spec (hI : (setStore s).RowsInv env) (key : MalValue) :
    (setStore s).QueryAnswers env key (setQuery s key) := by
  unfold setQuery
  by_cases hd : s.domain = .int32
  · rw [if_pos hd]
    exact hI.query_int32 hd key
  rw [if_neg hd]
  by_cases hs : s.domain = .string
  · rw [if_pos hs]
    exact hI.query hd (by rw [setStore, hs]; exact fits_string_iff)
  · rw [if_neg hs]
    exact hI.query hd (setAcceptsQuery_iff s key)

section

variable (hI : SetInv env s) (hc : Canonical key)
include hI hc

theorem setProbeIn_spec (hp : s.payload ≠ none) (hk : Fits s.domain key)
    {n : BitVec 32} (hint : s.domain = .int32 → n = valueF64ToI32 key) {hash : BitVec 64}
    (hhash : hash = keyHashValue env key) :
    ∃ found, setProbeIn env s (probeDomain s.domain) key n hash false = some found ∧
      (setStore s).Answers env key found := by
  obtain ⟨k, hH⟩ := hI.hashed hp
  subst hhash
  exact lookup_answers hH _ (setProbeHit_iff hI.toRowsInv hp hc hk hint)

theorem setLookupSlot_spec (hp : s.payload ≠ none) : ∃ found, setLookupSlot env s key = some found ∧
      (setStore s).Answers env key found := by
  have hlookup := (setQuery_spec hI.toRowsInv key).lookup _ fun intKey hf hint =>
    setProbeIn_spec hI hc hp hf (n := if s.domain = .int32 then intKey else 0)
      (fun hd => by rw [if_pos hd, hint hd]) rfl
  unfold setLookupSlot
  simp only [setProbe_eq]
  cases hquery : setQuery s key with
  | none | some intKey => rwa [hquery] at hlookup

/-- **Leaf lookup** of hashed int32 and identity storage: it skips the general hash, which the domain makes the same. -/
theorem setProbeBits_spec (hbits : setFindsBits s = true) : ∃ found, setProbeBits env s key = some found ∧
      (setStore s).Answers env key found := by
  simp only [setFindsBits, Bool.and_eq_true, Bool.or_eq_true, decide_eq_true_eq] at hbits
  obtain ⟨hsome, hdom⟩ := hbits
  have hprobe : ∀ intKey, Fits s.domain key → (s.domain = .int32 → intKey = valueF64ToI32 key) →
      ∃ found, setProbeIn env s (probeDomain s.domain) key intKey (keyHashMix key) false = some found ∧
        (setStore s).Answers env key found := by
    intro intKey hf hint
    have hbit : valueIsString key = false ∧ valueIsBigint key = false := by
      refine bits_of_fits ?_ ?_ hf
      all_goals rcases hdom with h | h <;> simp [h]
    exact setProbeIn_spec hI hc (isSome_iff_ne_none.1 hsome) hf hint (keyHashValue_of_bits env hbit.1 hbit.2).symm
  unfold setProbeBits
  rcases hdom with hd | hd
  · have hlookup := (hI.query_int32 hd key).lookup _ hprobe
    cases hquery : int32Query key with
    | none | some intKey =>
      rw [hquery] at hlookup
      simpa [hd, probeDomain] using hlookup
  rw [if_neg (by simp [hd])]
  have hfits : Fits s.domain key ↔ keyDomain key = .identity := by
    rw [hd, Fits]
    simp [acceptsDomain, eq_comm]
  split_ifs with hk
  · exact ⟨none, rfl, hI.rows.absent fun hf => hk (hfits.1 hf)⟩
  · simpa [hd, probeDomain] using hprobe 0 (hfits.2 (not_not.1 hk)) fun h => by simp [hd] at h

end

/-- **Search for insertion** of a key in the domain: the bucket of an equal member, or a vacant bucket. -/
theorem setFindSlot_spec (hI : (setStore s).RowsInv env) (hp : s.payload ≠ none) {k : ℕ}
    (hH : (setStore s).Indexed env k) (hc : Canonical key) (hk : Fits s.domain key) :
    ∃ b, setFindSlot env s key (keyHashValue env key) = some b ∧ (setStore s).Finds env key k b := by
  have hint : s.domain = .int32 → (if s.domain = .int32 then
      (if s.domain = .int32 then valueF64ToI32 key else 0) else 0) = valueF64ToI32 key := by
    intro hd
    rw [if_pos hd, if_pos hd]
  obtain ⟨b, hsearch, hout⟩ := find_answers hH _ (setProbeHit_iff hI hp hc hk hint)
  refine ⟨b, ?_, hout⟩
  rw [setFindSlot, setProbe_eq]
  exact congrArg (Option.bind · id) hsearch

/-! ## Membership -/

theorem setStorageHas_spec (hI : SetInv env s) (hc : Canonical key) :
    setStorageHas env (some s) key = some (contains ((setStore s).contents env) (env.den key)) := by
  unfold setStorageHas
  dsimp only
  split_ifs with hz hp
  · rw [Store.contains_of_absent (absent_of_empty (hI.size.symm.trans hz))]
  · have hpn := isNone_iff_eq_none.1 hp
    cases hacc : setAcceptsQuery s key with
    | false =>
      have habs : (setStore s).Lacks env key :=
        hI.rows.absent fun hf => by simp [(setAcceptsQuery_iff s key).1 hf] at hacc
      rw [Store.contains_of_absent habs, Bool.false_and]
    | true =>
      have hspec := setSmallFind_spec hI.toRowsInv hpn ((setAcceptsQuery_iff s key).2 hacc)
      rw [setSmallHas_eq]
      cases hfind : setSmallFind env s key with
      | none =>
        rw [hfind] at hspec
        rw [Store.contains_of_absent hspec]
        rfl
      | some i =>
        rw [hfind] at hspec
        rw [Store.contains_of_rowOf hspec]
        rfl
  · obtain ⟨found, hfound, hans⟩ := setLookupSlot_spec hI hc (by simpa using hp)
    rw [hfound, Store.contains_of_bucket hans]
    rfl

end Maligator.SetObject
