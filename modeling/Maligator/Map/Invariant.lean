/-
The invariant of Map storage and what its lookups return.

`mapRow` is the row at a position, whatever the layout, and `mapStore` the storage without its layout. `MapInv` says, beside
what `Store.Inv` says, that the layouts agree on what is live and that the entry hint names a live row.

`mapSmallFind_spec`, `mapLookupSlot_spec`, `mapFindSlot_spec`: each search returns the row of an equal key if there is one.
-/
import Maligator.Collection
import Maligator.Map.Storage

namespace Maligator.MapObject

open HashIndex Option Rows KeyRows Collection

/-! ## Rows whatever the layout -/

def mapRow (storage : MalMapStorage) (i : ℕ) : Option (MalValue × MalValue) :=
  if mapIsLive storage i then some (mapKeyAt storage i, mapValueAt storage i) else none

def denRow (env : KeyEnv) (storage : MalMapStorage) (i : ℕ) : Option (CollectionKey × MalValue) :=
  (mapRow storage i).map fun p => (env.den p.1, p.2)

def mapStore (storage : MalMapStorage) : Store MalValue where
  row := mapRow storage
  inline := storage.payload = none
  index := storage.index
  size := storage.size
  count := storage.count
  capacity := storage.capacity
  deletedSlots := storage.deletedSlots
  pins := storage.pins
  reserveSize := storage.reserveSize
  domain := storage.domain
  ownerReleased := storage.ownerReleased

/-- a row of this key and value is live unless the value is EMPTY -/
def liveRow (key value : MalValue) : Option (MalValue × MalValue) := if value = valueEmpty then none else some (key, value)

/-- the values tell which rows are live; inline the keys do so too -/
def ValuesOk (storage : MalMapStorage) : Prop :=
  ∀ i < storage.count, mapRow storage i = liveRow (mapKeyAt storage i) (mapValueAt storage i)

def HintOk (storage : MalMapStorage) : Prop := storage.entryHint ≠ 0 →
  storage.entryHint ≤ storage.count ∧ (mapStore storage).keys (storage.entryHint - 1) = some storage.hintKey

/-- **Map invariant.** -/
structure MapInv (env : KeyEnv) (storage : MalMapStorage) : Prop extends Store.Inv env (mapStore storage) where
  values : ValuesOk storage
  hint : HintOk storage

theorem mapRow_isSome (storage : MalMapStorage) (i : ℕ) : (mapRow storage i).isSome = mapIsLive storage i := by
  unfold mapRow
  split_ifs with h <;> simp [h]

variable {s t : MalMapStorage} {i : ℕ} {env : KeyEnv} {key : MalValue}

theorem mapRow_of_live (h : mapIsLive s i = true) : mapRow s i = some (mapKeyAt s i, mapValueAt s i) := if_pos h

theorem keys_eq_some : (mapStore s).keys i = some key ↔ mapIsLive s i = true ∧ mapKeyAt s i = key := by
  change (mapRow s i).map Prod.fst = some key ↔ _
  unfold mapRow
  split_ifs with h <;> simp [h]

theorem mapIsLive_eq (s : MalMapStorage) (i : ℕ) :
    mapIsLive s i = if s.payload = none then mapKeyAt s i != valueEmpty else mapValueAt s i != valueEmpty := by
  cases hp : s.payload with
  | none => simp [mapIsLive, mapKeyAt, hp]
  | some p => simp [mapIsLive, hp]

theorem valuesOk_of_payload (hp : s.payload ≠ none) : ValuesOk s := by
  intro i _
  rw [mapRow, mapIsLive_eq, if_neg hp, liveRow]
  by_cases h : mapValueAt s i = valueEmpty <;> simp [h]

theorem HintOk.congr (h : HintOk s) (hentry : t.entryHint = s.entryHint) (hkey : t.hintKey = s.hintKey)
    (hcount : s.count ≤ t.count) (hrows : ∀ i < s.count, mapRow t i = mapRow s i) : HintOk t := by
  intro hne
  rw [hentry] at hne ⊢
  obtain ⟨hle, hk⟩ := h hne
  refine ⟨hle.trans hcount, ?_⟩
  rw [hkey, ← hk]
  exact congrArg (Option.map Prod.fst) (hrows _ (by omega))

/-! ## The answer of a search -/

/-- a 1-based entry that answers a search for `key` -/
def Answers (env : KeyEnv) (s : MalMapStorage) (key : MalValue) (entry : ℕ) : Prop :=
  (entry = 0 ∧ (mapStore s).Lacks env key) ∨ (entry ≠ 0 ∧ (mapStore s).HasAt env key (entry - 1))

theorem Answers.contains {entry : ℕ} (h : Answers env s key entry) :
    contains ((mapStore s).contents env) (env.den key) = (entry != 0) := by
  rcases h with ⟨rfl, habs⟩ | ⟨hne, hrow⟩
  · exact Store.contains_of_absent habs
  · rw [Store.contains_of_rowOf hrow]
    simp [hne]

theorem Answers.value (hI : MapInv env s) {entry : ℕ} (h : Answers env s key entry) :
    (lookup ((mapStore s).contents env) (env.den key)).getD valueUndefined = mapEntryValue (some s) entry := by
  rcases h with ⟨rfl, habs⟩ | ⟨hne, hlt, k, hk, hd⟩
  · have hnone : lookup ((mapStore s).contents env) (env.den key) = none := by
      rw [lookup_eq_none_iff, ← contains_iff, Store.contains_of_absent habs]
      simp
    rw [hnone]
    rfl
  obtain ⟨hl, rfl⟩ := keys_eq_some.1 hk
  have hentry : (mapStore s).entry env (entry - 1) = some (env.den key, mapValueAt s (entry - 1)) := by
    rw [← hd]
    exact congrArg (Option.map _) (mapRow_of_live hl)
  rw [Store.contents, lookup_entries hI.nodup hlt hentry, getD_some, mapEntryValue, if_neg hne]

/-! ## Inline search -/

theorem smallEquals_iff (env : KeyEnv) {domain : MalMapKeyDomain} {candidate : MalValue} (hc : Fits domain candidate) :
    (candidate == key || mapKeyEqualsSlow env domain candidate key) = true ↔ env.den candidate = env.den key := by
  rw [Bool.or_eq_true, beq_iff_eq]
  by_cases hs : domain = .string
  · subst hs
    have hcs := fits_string_iff.1 hc
    simp only [mapKeyEqualsSlow, if_true, Bool.and_eq_true, stringEquals, beq_iff_eq]
    constructor
    · rintro (rfl | ⟨hk, hu⟩)
      · rfl
      · rw [den_of_string env hcs, den_of_string env hk, hu]
    · intro h
      have hks := fits_string_iff.1 (fits_of_den_eq env hc h)
      rw [den_of_string env hcs, den_of_string env hks] at h
      exact .inr ⟨hks, CollectionKey.string.inj h⟩
  by_cases hg : domain = .generic
  · subst hg
    rw [← keyValueEquals_iff]
    constructor
    · rintro (rfl | h)
      · simp [keyValueEquals]
      · exact h
    · exact Or.inr
  · obtain ⟨h1, h2⟩ := bits_of_fits hs hg hc
    rw [den_eq_bits_iff env h1 h2]
    simp [mapKeyEqualsSlow, hs, hg]

theorem mapSmallFind_spec (hI : MapInv env s) (hp : s.payload = none) (key : MalValue) :
    Answers env s key (mapSmallFind env s key) := by
  have hspec : ((List.range s.count).find? fun i => s.small i != valueEmpty &&
      (s.small i == key || mapKeyEqualsSlow env s.domain (s.small i) key)).elim ((mapStore s).Lacks env key)
      ((mapStore s).HasAt env key) := by
    refine find?_answers fun i hi => ?_
    have hkey : mapKeyAt s i = s.small i := by simp [mapKeyAt, hp]
    have hlive : mapIsLive s i = (s.small i != valueEmpty) := by simp [mapIsLive, hp]
    rw [Bool.and_eq_true, ← hlive, ← hkey]
    constructor
    · rintro ⟨hl, heq⟩
      have hrow := keys_eq_some.2 ⟨hl, rfl⟩
      exact ⟨hi, _, hrow, (smallEquals_iff env (hI.rows.keyOk i hi _ hrow).2).1 heq⟩
    · rintro ⟨_, c, hrow, hd⟩
      obtain ⟨hl, rfl⟩ := keys_eq_some.1 hrow
      exact ⟨hl, (smallEquals_iff env (hI.rows.keyOk i hi _ hrow).2).2 hd⟩
  unfold mapSmallFind
  generalize (List.range s.count).find? _ = found at hspec ⊢
  cases found with
  | none => exact .inl ⟨rfl, hspec⟩
  | some i => exact .inr ⟨Nat.succ_ne_zero i, hspec⟩

/-! ## Hashed search -/

theorem mapProbe_eq (env : KeyEnv) (s : MalMapStorage) (key : MalValue) (intKey : BitVec 32) (hash : BitVec 64)
    (insert : Bool) : mapProbe env s key intKey hash insert =
      mapProbeIn env s (probeDomain s.domain) key (if s.domain = .int32 then intKey else 0) hash insert := by
  unfold mapProbe
  cases h : s.domain <;> simp [probeDomain]

/-- **Hashed comparison.** On a live row the probe's test decides key equality. -/
theorem mapProbeHit_iff (hI : (mapStore s).RowsInv env) (hp : s.payload ≠ none) (hc : Canonical key)
    (hk : Fits s.domain key) {intKey : BitVec 32} (hint : s.domain = .int32 → intKey = valueF64ToI32 key) :
    ∀ i < s.count, ∀ c, (mapStore s).keys i = some c →
      (mapProbeHit env s (probeDomain s.domain) key intKey i = true ↔ env.den c = env.den key) := by
  intro i hi c hrow
  obtain ⟨payload, hpay⟩ := ne_none_iff_exists'.1 hp
  obtain ⟨-, hkey⟩ := keys_eq_some.1 hrow
  have hfit : Fits s.domain c := (hI.rows.keyOk i hi c hrow).2
  by_cases hd : s.domain = .int32
  · have hints : valueFromF64OfI32 (payload.ints i) = c := by simpa [mapKeyAt, hpay, payloadKey, hd] using hkey
    rw [← hints, ← int32_eq_iff env (hd ▸ hk) hc, ← hint hd]
    simp [mapProbeHit, hpay, hd, probeDomain]
  have hpair : (payload.pairs i).key = c := by simpa [mapKeyAt, hpay, payloadKey, hd] using hkey
  rw [← probeEquals_iff env hfit hk, ← probeEquals_probeDomain]
  simp [mapProbeHit, hpay, probeDomain_ne_int32 hd, hpair]

theorem mapQueryInDomain_spec (hI : (mapStore s).RowsInv env) (key : MalValue) :
    (mapStore s).QueryAnswers env key (mapQueryInDomain s key) := by
  have hquery : ∀ {fits : Bool}, s.domain ≠ .int32 → (Fits s.domain key ↔ fits = true) →
      (mapStore s).QueryAnswers env key (if fits = true then some 0 else none) := fun hd h => hI.query hd h
  unfold mapQueryInDomain
  cases hd : s.domain with
  | empty => exact hI.rows.absent fun h => not_fits_empty key (hd ▸ h)
  | int32 => exact hI.query_int32 hd key
  | number => exact hquery (by simp [hd]) (by rw [hd, fits_number_iff])
  | string => exact hquery (by simp [hd]) (by rw [hd, fits_string_iff])
  | identity => exact hquery (by simp [hd]) (by rw [hd, fits_identity_iff])
  | generic => exact ⟨by simp [mapStore, hd, Fits, acceptsDomain], fun h => by simp [mapStore, hd] at h⟩

section

variable (hI : MapInv env s) (hc : Canonical key)
include hI hc

theorem mapProbeIn_spec (hp : s.payload ≠ none) (hk : Fits s.domain key)
    {n : BitVec 32} (hint : s.domain = .int32 → n = valueF64ToI32 key) {hash : BitVec 64}
    (hhash : hash = keyHashValue env key) :
    ∃ found, mapProbeIn env s (probeDomain s.domain) key n hash false = some found ∧
      (mapStore s).Answers env key found := by
  obtain ⟨k, hH⟩ := hI.hashed hp
  subst hhash
  exact lookup_answers hH _ (mapProbeHit_iff hI.toRowsInv hp hc hk hint)

theorem mapLookupSlot_spec (hp : s.payload ≠ none) :
    ∃ found, mapLookupSlot env s key = some found ∧ (mapStore s).Answers env key found := by
  have hlookup := (mapQueryInDomain_spec hI.toRowsInv key).lookup _ fun intKey hf hint =>
    mapProbeIn_spec hI hc hp hf (n := if s.domain = .int32 then intKey else 0)
      (fun hd => by rw [if_pos hd, hint hd]) rfl
  unfold mapLookupSlot
  simp only [mapProbe_eq]
  cases hquery : mapQueryInDomain s key with
  | none | some intKey => rwa [hquery] at hlookup

/-- **Storage search**, in any layout. -/
theorem mapStorageFind_spec : ∃ entry, mapStorageFind env (some s) key = some entry ∧ Answers env s key entry := by
  unfold mapStorageFind
  dsimp only
  split_ifs with hz hp
  · exact ⟨0, rfl, .inl ⟨rfl, absent_of_empty (hI.size.symm.trans hz)⟩⟩
  · exact ⟨_, rfl, mapSmallFind_spec hI (by simpa using hp) key⟩
  obtain ⟨found, hfound, hans⟩ := mapLookupSlot_spec hI hc (by simpa using hp)
  rw [hfound]
  cases found with
  | none => exact ⟨0, rfl, .inl ⟨rfl, hans⟩⟩
  | some b => exact ⟨_, rfl, .inr ⟨Nat.succ_ne_zero _, hans.2.2⟩⟩

end

/-- **Search for insertion** of a key in the domain: the bucket of an equal key, or a vacant bucket. -/
theorem mapFindSlot_spec (hI : (mapStore s).RowsInv env) (hp : s.payload ≠ none) {k : ℕ}
    (hH : (mapStore s).Indexed env k) (hc : Canonical key) (hk : Fits s.domain key) :
    ∃ b, mapFindSlot env s key (keyHashValue env key) = some b ∧ (mapStore s).Finds env key k b := by
  have hint : s.domain = .int32 → (if s.domain = .int32 then
      (if s.domain = .int32 then valueF64ToI32 key else 0) else 0) = valueF64ToI32 key := by
    intro hd
    rw [if_pos hd, if_pos hd]
  obtain ⟨b, hsearch, hout⟩ := find_answers hH _ (mapProbeHit_iff hI hp hc hk hint)
  refine ⟨b, ?_, hout⟩
  rw [mapFindSlot, mapProbe_eq]
  exact congrArg (Option.bind · id) hsearch

end Maligator.MapObject
