/-
Writing to a Map, up to its data: the list of places, live or empty, in order of position.

`mapUpdateEntry_spec`: updating an entry writes its value in place; it may exchange the key for an equal string.
`mapUpsertStore_spec`: upsert followed by the store is `LiveList.write` on the data left by the compaction that was due.
`mapSetHinted_spec`, `mapObjectSetBorrowed_spec`: the hinted and the borrowed store do the same, whatever the entry.
-/
import Maligator.Map.Insert

namespace Maligator.MapObject

open HashIndex Function Option Rows LiveList KeyRows Collection

def mapData (env : KeyEnv) (s : MalMapStorage) : List (Option (CollectionKey × MalValue)) :=
  places (denRow env s) s.count

theorem live_mapData (env : KeyEnv) (s : MalMapStorage) : live (mapData env s) = (mapStore s).contents env := live_places _ _

/-- what an operation does to the data of a storage, which stays well formed -/
abbrev MapEffect (env : KeyEnv) (s t : MalMapStorage)
    (change : List (Option (CollectionKey × MalValue)) → List (Option (CollectionKey × MalValue))) : Prop :=
  MapInv env t ∧ Store.Effect env (mapStore s) (mapStore t) change

variable {s t : MalMapStorage} {i : ℕ} {env : KeyEnv} {key value : MalValue} {entry : ℕ}

/-! ## Stores -/

/-- what a store of `value` under `key` leaves behind, with the entry it wrote -/
structure Stored (env : KeyEnv) (s t : MalMapStorage) (key value : MalValue) (entry : ℕ) : Prop where
  inv : MapInv env t
  data : (mapStore t).data env = write ((mapStore s).data env) (env.den key) value
  pins : t.pins = s.pins
  named : entry ≠ 0
  row : (mapStore t).HasAt env key (entry - 1)

/-- **Rewriting a row**: an equal key and a value. The hint follows the key. -/
theorem Written.stored {key' : MalValue} (hI : MapInv env s) (hrow : (mapStore s).HasAt env key i)
    (h : Written s t i key' value) (hc : Canonical key') (hd : env.den key' = env.den key) (hv : value ≠ valueEmpty)
    {hintKey : MalValue} (hkey : s.entryHint ≠ 0 → hintKey = if s.entryHint = i + 1 then key' else s.hintKey) :
    Stored env s { t with hintKey := hintKey } key value (i + 1) := by
  have hkv : s.payload = none → (key' = valueEmpty ↔ value = valueEmpty) := fun _ => iff_of_false hc.notEmpty hv
  have hstore := h.store hkv
  have hcount : t.count = s.count := by rw [h.rest]
  rw [liveRow, if_neg hv] at hstore
  have hkeys : (mapStore t).keys = update (mapStore s).keys i (some key') := by
    rw [hstore]
    exact Store.keys_update (mapStore s) i (some (key', value))
  obtain ⟨hinv, hdata⟩ := hI.toInv.rewrite hrow hc hd value
  change Store.Inv env { mapStore s with row := update (mapRow s) i _ } at hinv
  change Store.data env { mapStore s with row := update (mapRow s) i _ } = _ at hdata
  rw [← hstore] at hinv hdata
  refine ⟨⟨hinv, h.valuesOk hI.values hkv, fun hne => ?_⟩, hdata, by rw [h.rest], Nat.succ_ne_zero i, ?_⟩
  · have hentry : t.entryHint = s.entryHint := by rw [h.rest]
    change t.entryHint ≤ t.count ∧ (mapStore t).keys (t.entryHint - 1) = some hintKey
    rw [hentry] at hne ⊢
    obtain ⟨hle, hk⟩ := hI.hint hne
    rw [hcount, hkeys, hkey hne]
    refine ⟨hle, ?_⟩
    split_ifs with hi
    · rw [hi, Nat.add_sub_cancel, update_self]
    · rw [update_of_ne (by omega), hk]
  · refine ⟨hcount.symm ▸ hrow.1, key', ?_, hd⟩
    change (mapStore t).keys i = some key'
    rw [hkeys, update_self]

theorem mapSetValue_spec (hI : MapInv env s) (hrow : (mapStore s).HasAt env key i) (hv : value ≠ valueEmpty) :
    Stored env s (mapSetValue s i value) key value (i + 1) := by
  obtain ⟨hi, k, hk, hd⟩ := id hrow
  have hc := (hI.rows.keyOk i hi k hk).1
  obtain ⟨-, rfl⟩ := keys_eq_some.1 hk
  have hwrite := (Written.refl s i).setValue value
  have hsame : { mapSetValue s i value with hintKey := s.hintKey } = mapSetValue s i value := by rw [hwrite.rest]
  rw [← hsame]
  refine hwrite.stored hI hrow hc hd hv fun hne => ?_
  split_ifs with he
  · have hkey := (hI.hint hne).2
    rw [he, Nat.add_sub_cancel, hk] at hkey
    exact (some.inj hkey).symm
  · rfl

theorem mapUpdateEntry_spec (strings : StringView) (hI : MapInv env s) (hc : Canonical key)
    (hrow : (mapStore s).HasAt env key i) (hv : value ≠ valueEmpty) :
    Stored env s (mapUpdateEntry strings s (i + 1) key value) key value (i + 1) := by
  obtain ⟨hi, k, hk, hd⟩ := id hrow
  have hfit : Fits s.domain key := fits_of_den_eq env (hI.rows.keyOk i hi k hk).2 hd
  have hwrite := ((Written.refl s i).setValue value).setKey (storable_of_fits hc hfit)
  unfold mapUpdateEntry
  simp only [Nat.add_sub_cancel]
  split_ifs with hkey hhint
  · -- an equal string replaces the key, and the hint follows it
    refine hwrite.stored hI hrow hc rfl hv fun _ => ?_
    rw [hwrite.rest] at hhint
    rw [if_pos hhint]
  · have hsame : { mapSetKey (mapSetValue s i value) i key with hintKey := s.hintKey } =
        mapSetKey (mapSetValue s i value) i key := by rw [hwrite.rest]
    rw [← hsame]
    refine hwrite.stored hI hrow hc rfl hv fun _ => ?_
    rw [hwrite.rest] at hhint
    rw [if_neg hhint]
  · exact mapSetValue_spec hI hrow hv

theorem Stored.remember
    (h : Stored env s t key value entry) : Stored env s (mapStorageRememberEntry t entry) key value entry := by
  obtain ⟨hlt, k, hk, hd⟩ := h.row
  obtain ⟨-, rfl⟩ := keys_eq_some.1 hk
  unfold mapStorageRememberEntry
  split_ifs with heq hz
  · exact h
  · exact absurd hz h.named
  refine ⟨⟨h.inv.toInv, h.inv.values, fun _ => ⟨?_, hk⟩⟩, h.data, h.pins, h.named, h.row⟩
  change entry - 1 < t.count at hlt
  change entry ≤ t.count
  omega

theorem Stored.effect {s₁ : MalMapStorage} (hI : MapInv env s) (hI₁ : MapInv env s₁)
    (hcomp : Store.Compacted env (mapStore s) (mapStore s₁)) (h : Stored env s₁ t key value entry) :
    MapEffect env s t (write · (env.den key) value) :=
  ⟨h.inv, hcomp.write hI.toRowsInv hI₁.toRowsInv h.data h.pins⟩

theorem RowAppended.stored {u : MalMapStorage} (habs : (mapStore s).Lacks env key) (h : RowAppended env s t key)
    (hs : Stored env t u key value (s.count + 1)) : Stored env s u key value (s.count + 1) := by
  refine ⟨hs.inv, ?_, hs.pins.trans h.store.pins, hs.named, hs.row⟩
  have hrow : (mapStore t).entry env (mapStore s).count = some (env.den key, valueUndefined) :=
    congrArg (Option.map _) h.store.row
  have hlt : (mapStore s).count < (mapStore t).count := (Nat.lt_succ_self _).trans_le h.store.count.ge
  have hcont := Store.contains_of_absent habs
  rw [hs.data, Store.data, write_of_row h.store.inv.nodup hlt hrow, h.store.count, places_succ, update_self,
    Store.data, write_of_absent hcont]
  congr 1
  refine places_congr fun i hi => ?_
  rw [update_of_ne (Nat.ne_of_lt hi)]
  exact congrArg (Option.map _) (h.store.rows i hi)

theorem RowAppended.hasAt (h : RowAppended env s t key) : (mapStore t).HasAt env key s.count :=
  ⟨(Nat.lt_succ_self _).trans_le h.store.count.ge, key, congrArg (Option.map _) h.store.row, rfl⟩

theorem mapUpsertStore_spec {env : MapEnv} (hI : MapInv env s) (hroom : MapRoom s)
    (hc : Canonical key) (store : MalMapStorage → ℕ → Bool → MalMapStorage)
    (hstore : ∀ (t : MalMapStorage) (i : ℕ) (inserted : Bool), MapInv env t → (mapStore t).HasAt env key i →
      Stored env t (store t (i + 1) inserted) key value (i + 1)) :
    ∃ t entry inserted, mapUpsert env s key = some (t, entry, inserted) ∧
      MapEffect env s (store t entry inserted) (write · (env.den key) value) := by
  obtain ⟨s₁, t, entry, inserted, ht, hI₁, hcomp, hout⟩ := mapUpsert_spec hI hroom hc
  refine ⟨t, entry, inserted, ht, ?_⟩
  rcases hout with ⟨-, rfl, hne, hrow⟩ | ⟨-, rfl, habs, happ⟩
  · have hst := hstore t (entry - 1) inserted hI₁ hrow
    rw [Nat.sub_add_cancel (Nat.pos_of_ne_zero hne)] at hst
    exact hst.effect hI hI₁ hcomp
  · have hst := hstore t s₁.count inserted (happ.inv hI₁) happ.hasAt
    exact (happ.stored habs hst).effect hI hI₁ hcomp

/-! ## Hints and borrowed entries -/

/-- **Entry hint.** A hint that answers names a row of an equal key. -/
theorem mapStorageEntryHint_spec (hI : MapInv env s) (h : mapStorageEntryHint env (some s) key ≠ 0) :
    (mapStore s).HasAt env key (mapStorageEntryHint env (some s) key - 1) := by
  have hrow : s.entryHint ≠ 0 → env.den s.hintKey = env.den key → (mapStore s).HasAt env key (s.entryHint - 1) := by
    intro hne hd
    obtain ⟨hle, hk⟩ := hI.hint hne
    exact ⟨by change _ < s.count; omega, _, hk, hd⟩
  unfold mapStorageEntryHint at h ⊢
  dsimp only at h ⊢
  split_ifs at h ⊢ with hz heq hkind hequal
  · exact absurd rfl h
  · exact hrow hz (by rw [heq])
  · exact absurd rfl h
  · exact hrow hz ((keyValueEquals_iff env _ _).1 hequal)
  · exact absurd rfl h

/-- **Borrowed entry.** An entry that passes the check names a row of an equal key, however old it is. -/
theorem mapEntryMatches_spec (hI : MapInv env s)
    (h : mapEntryMatches env s key entry = true) : entry ≠ 0 ∧ (mapStore s).HasAt env key (entry - 1) := by
  simp only [mapEntryMatches, Bool.and_eq_true, decide_eq_true_eq] at h
  obtain ⟨⟨⟨hne, hle⟩, hl⟩, heq⟩ := h
  have hlt : entry - 1 < s.count := by omega
  have hk := keys_eq_some.2 ⟨hl, rfl⟩
  exact ⟨hne, hlt, _, hk, (smallEquals_iff env (hI.rows.keyOk _ hlt _ hk).2).1 heq⟩

theorem mapInv_storageNew (env : MapEnv) : MapInv env (mapStorageNew env) :=
  ⟨Store.inv_empty rfl rfl rfl rfl rfl rfl rfl, nofun, absurd rfl⟩

theorem mapObjectStorage_of_entries (env : MapEnv) {map : MalMapObject} (he : map.entries = some s) :
    mapObjectStorage env map = s := by
  rw [mapObjectStorage, he]
  rfl

section Stores

variable {env : MapEnv} {map : MalMapObject} (strings : StringView) (hI : MapInv env (mapObjectStorage env map))
  (hv : value ≠ valueEmpty)

include hI hv

section

variable (hroom : MapRoom (mapObjectStorage env map))
include hroom

theorem mapObjectSet_spec (hk : key ≠ valueEmpty) : ∃ t, mapObjectSet env strings map key value = some ⟨some t⟩ ∧
      MapEffect env (mapObjectStorage env map) t (write · (env.den (collectionCanonicalValue key)) value) := by
  have hc := canonical_collectionCanonicalValue hk
  obtain ⟨t, entry, inserted, ht, heff⟩ := mapUpsertStore_spec hI hroom hc
    (fun t entry _ => mapUpdateEntry strings t entry (collectionCanonicalValue key) value)
    fun t i _ hIt hrow => mapUpdateEntry_spec strings hIt hc hrow hv
  refine ⟨_, ?_, heff⟩
  simp only [mapObjectSet, ht, bind_eq_bind, bind_some, pure_def]

theorem mapSetHinted_spec (hc : Canonical key) : ∃ t, mapSetHinted env strings map key value = some ⟨some t⟩ ∧
      MapEffect env (mapObjectStorage env map) t (write · (env.den key) value) := by
  by_cases hz : mapStorageEntryHint env map.entries key = 0
  · have hstore : ∀ (t : MalMapStorage) (i : ℕ) (inserted : Bool), MapInv env t →
        (mapStore t).HasAt env key i → Stored env t (mapStorageRememberEntry
          (if inserted = true then mapSetValue t (i + 1 - 1) value else mapUpdateEntry strings t (i + 1) key value)
          (i + 1)) key value (i + 1) := by
      intro t i inserted hIt hrow
      apply Stored.remember
      split_ifs
      · exact mapSetValue_spec hIt hrow hv
      · exact mapUpdateEntry_spec strings hIt hc hrow hv
    obtain ⟨t, entry, inserted, ht, heff⟩ := mapUpsertStore_spec hI hroom hc
      (fun t entry inserted => mapStorageRememberEntry
        (if inserted = true then mapSetValue t (entry - 1) value else mapUpdateEntry strings t entry key value) entry)
      hstore
    refine ⟨_, ?_, heff⟩
    simp only [mapSetHinted, hz, if_true, ht, bind_eq_bind, bind_some, pure_def]
  · cases he : map.entries with
    | none => rw [he] at hz; exact absurd rfl hz
    | some s =>
      have hs := mapObjectStorage_of_entries env he
      rw [hs] at hI ⊢
      rw [he] at hz
      have hrow := mapStorageEntryHint_spec hI hz
      have hst := (mapUpdateEntry_spec strings hI hc hrow hv).remember
      rw [Nat.sub_add_cancel (Nat.pos_of_ne_zero hz)] at hst
      refine ⟨_, ?_, hst.effect hI hI (.refl _ _)⟩
      simp only [mapSetHinted, he, hz, if_false, map_some, bind_eq_bind, bind_some, Bool.false_eq_true, pure_def]

/-- **Borrowed set**, for an entry that may be stale. -/
theorem mapObjectSetBorrowed_spec (hc : Canonical key) (entry : ℕ) :
    ∃ t, mapObjectSetBorrowed env strings map key value entry = some ⟨some t⟩ ∧
      MapEffect env (mapObjectStorage env map) t (write · (env.den key) value) := by
  have hslow := mapSetHinted_spec strings hI hv hroom hc
  unfold mapObjectSetBorrowed
  cases he : map.entries with
  | none => exact hslow
  | some s =>
    have hs := mapObjectStorage_of_entries env he
    dsimp only
    split_ifs with hm
    · rw [hs] at hI ⊢
      obtain ⟨hne, hrow⟩ := mapEntryMatches_spec hI hm
      have hst := (mapUpdateEntry_spec strings hI hc hrow hv).remember
      rw [Nat.sub_add_cancel (Nat.pos_of_ne_zero hne)] at hst
      exact ⟨_, rfl, hst.effect hI hI (.refl _ _)⟩
    · exact hslow

end

end Stores

end Maligator.MapObject
