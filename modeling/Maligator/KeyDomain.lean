/-
The key domains of Map and Set storage.

A storage remembers the narrowest domain all its keys lie in, and compares keys the cheapest way that domain allows. The
two enumerations `MalMapKeyDomain` and `MalSetKeyDomain` and the functions on them are the same text twice in the source
(`map_object.c`, `set_object.c`), so they are one definition here.

`probeEquals_iff`, `keyEquals_iff`: within a storage's domain the cheap comparison decides key equality.
-/
import Maligator.Value

namespace Maligator

inductive MalKeyDomain where
  | empty
  | int32
  | number
  | string
  | identity
  | generic
  deriving DecidableEq, Repr

instance : Fintype MalKeyDomain where
  elems := {.empty, .int32, .number, .string, .identity, .generic}
  complete d := by cases d <;> decide

abbrev MalMapKeyDomain := MalKeyDomain
abbrev MalSetKeyDomain := MalKeyDomain

/-- `mal_map_key_domain`, `mal_set_key_domain` -/
def keyDomain (key : MalValue) : MalKeyDomain :=
  if valueIsF64 key then if Binary64.isInt32 key then .int32 else .number
  else if valueIsString key then .string
  else if valueIsObject key || valueIsSymbol key then .identity
  else .generic

/-- `mal_map_join_domain`, `mal_set_join_domain` -/
def joinDomain (left right : MalKeyDomain) : MalKeyDomain :=
  if left = .empty || left = right then right
  else if (left = .int32 && right = .number) || (left = .number && right = .int32) then .number
  else .generic

/-- `mal_map_accepts_domain`, `mal_set_accepts_domain` on the domain of the storage -/
def acceptsDomain (stored domain : MalKeyDomain) : Bool :=
  stored = .generic || stored = domain || (stored = .number && domain = .int32)

/-- `mal_set_int32_query` and the int32 case of `mal_map_query_in_domain` -/
def int32Query (key : MalValue) : Option (BitVec 32) :=
  if valueIsF64 key && Binary64.isInt32 key then some (valueF64ToI32 key) else none

/-- the comparison of a hashed pair candidate, in the probe specialised by `domain` -/
def probeEquals (env : KeyEnv) (domain : MalKeyDomain) (candidate key : MalValue) : Bool :=
  candidate == key || (domain == .string && stringEquals env candidate key) ||
    (domain == .generic && keyValueEquals env candidate key)

def probeDomain : MalKeyDomain → MalKeyDomain
  | .int32 => .int32
  | .string => .string
  | .generic => .generic
  | _ => .identity

def Fits (domain : MalKeyDomain) (key : MalValue) : Prop := acceptsDomain domain (keyDomain key) = true

theorem keyDomain_ne_empty (key : MalValue) : keyDomain key ≠ .empty := by
  unfold keyDomain
  split_ifs <;> decide

variable {key : MalValue} {domain : MalKeyDomain}
  (env : KeyEnv) {left right : MalKeyDomain} (stored : MalKeyDomain) {candidate : MalValue} {n : BitVec 32}

theorem fits_join (h : Fits left key) (hr : right ≠ .empty) : Fits (joinDomain left right) key := by
  have hd := keyDomain_ne_empty key
  unfold Fits at *
  generalize keyDomain key = d at *
  revert left right d
  decide

/-- the domain the source computes for a new key, which skips the classification under GENERIC -/
def insertDomain (stored : MalKeyDomain) (key : MalValue) : MalKeyDomain :=
  if stored = .generic then .generic else keyDomain key

theorem insertDomain_ne_empty (key : MalValue) : insertDomain stored key ≠ .empty := by
  unfold insertDomain
  split_ifs
  · decide
  · exact keyDomain_ne_empty key

theorem fits_join_insertDomain (key : MalValue) : Fits (joinDomain stored (insertDomain stored key)) key := by
  unfold Fits insertDomain
  generalize keyDomain key = d
  revert stored d
  decide

theorem accepts_insertDomain_iff {stored : MalKeyDomain} :
    acceptsDomain stored (insertDomain stored key) = true ↔ Fits stored key := by
  unfold Fits insertDomain
  generalize keyDomain key = d
  revert stored d
  decide

theorem joinDomain_ne_empty (left : MalKeyDomain) (hr : right ≠ .empty) : joinDomain left right ≠ .empty := by
  revert left right
  decide

theorem of_joinDomain_eq_int32 (h : joinDomain left right = .int32) : left = .empty ∨ left = .int32 := by
  revert left right
  decide

theorem not_fits_empty (key : MalValue) : ¬ Fits .empty key := by
  unfold Fits
  have := keyDomain_ne_empty key
  generalize keyDomain key = d at *
  revert d
  decide

/-! ## What the domains say about a key -/

theorem fits_number_iff : Fits .number key ↔ valueIsF64 key = true := by
  unfold Fits keyDomain
  split_ifs <;> simp_all [acceptsDomain]

theorem of_fits_int32 (h : Fits .int32 key) : valueIsF64 key = true ∧ Binary64.isInt32 key = true := by
  unfold Fits keyDomain at h
  split_ifs at h <;> simp_all [acceptsDomain]

theorem not_f64_of_string (h : valueIsString key = true) : valueIsF64 key = false := by
  simp only [valueIsF64, valueIsString, valueClass, decide_eq_false_iff_not, beq_iff_eq] at h ⊢
  omega

theorem fits_string_iff : Fits .string key ↔ valueIsString key = true := by
  constructor
  · intro h
    unfold Fits keyDomain at h
    split_ifs at h <;> simp_all [acceptsDomain]
  · intro h
    simp [Fits, keyDomain, not_f64_of_string h, h, acceptsDomain]

theorem bits_of_identity (h : (valueIsObject key || valueIsSymbol key) = true) :
    valueIsF64 key = false ∧ valueIsString key = false ∧ valueIsBigint key = false := by
  simp only [valueIsF64, valueIsString, valueIsBigint, valueIsObject, valueIsSymbol, valueClass, Bool.or_eq_true,
    decide_eq_true_eq, decide_eq_false_iff_not, beq_iff_eq, beq_eq_false_iff_ne] at h ⊢
  omega

theorem fits_identity_iff : Fits .identity key ↔ (valueIsObject key || valueIsSymbol key) = true := by
  constructor
  · intro h
    unfold Fits keyDomain at h
    split_ifs at h <;> simp_all [acceptsDomain]
  · intro h
    obtain ⟨h1, h2, -⟩ := bits_of_identity h
    simp [Fits, keyDomain, h1, h2, h, acceptsDomain]

theorem not_string_of_f64 (h : valueIsF64 key = true) : valueIsString key = false ∧ valueIsBigint key = false := by
  simp only [valueIsF64, valueIsString, valueIsBigint, valueClass, decide_eq_true_eq, beq_eq_false_iff_ne] at *
  omega

theorem bits_of_fits (hs : domain ≠ .string) (hg : domain ≠ .generic)
    (h : Fits domain key) : valueIsString key = false ∧ valueIsBigint key = false := by
  cases domain with
  | empty => exact absurd h (not_fits_empty key)
  | int32 => exact not_string_of_f64 (of_fits_int32 h).1
  | number => exact not_string_of_f64 (fits_number_iff.1 h)
  | string => exact absurd rfl hs
  | identity => exact (bits_of_identity (fits_identity_iff.1 h)).2
  | generic => exact absurd rfl hg

theorem den_of_string (h : valueIsString key = true) : env.den key = .string (env.stringUnits key) := by
  simp [KeyEnv.den, h]

/-- **Hashed comparison.** For a stored candidate and a key that both lie in the domain. -/
theorem probeEquals_iff (hc : Fits domain candidate)
    (hk : Fits domain key) : probeEquals env domain candidate key = true ↔ env.den candidate = env.den key := by
  by_cases hs : domain = .string
  · subst hs
    rw [den_of_string env (fits_string_iff.1 hc), den_of_string env (fits_string_iff.1 hk)]
    simp only [probeEquals, stringEquals, beq_self_eq_true, Bool.true_and, Bool.or_eq_true, beq_iff_eq,
      CollectionKey.string.injEq]
    constructor
    · rintro ((rfl | h) | h)
      · rfl
      · exact h
      · cases h
    · exact fun h => .inl (.inr h)
  by_cases hg : domain = .generic
  · subst hg
    rw [← keyValueEquals_iff]
    simp only [probeEquals, Bool.or_eq_true, beq_iff_eq]
    constructor
    · rintro ((rfl | h) | h)
      · simp [keyValueEquals]
      · cases h
      · exact h
    · exact fun h => .inr h
  · obtain ⟨h1, h2⟩ := bits_of_fits hs hg hc
    rw [den_eq_bits_iff env h1 h2]
    simp [probeEquals, hs, hg]

/-- **Packed comparison.** Int32 keys are equal when their i32 are. -/
theorem int32_eq_iff (hk : Fits .int32 key) (hc : Canonical key) :
    n = valueF64ToI32 key ↔ env.den (valueFromF64OfI32 n) = env.den key := by
  obtain ⟨h1, h2⟩ := not_string_of_f64 (valueIsF64_ofI32 n)
  rw [den_eq_bits_iff env h1 h2]
  constructor
  · rintro rfl
    exact valueFromF64OfI32_toI32 (of_fits_int32 hk).2 hc.notNegativeZero
  · rintro rfl
    exact (valueF64ToI32_ofI32 n).symm

theorem int32Query_of_fits (h : Fits .int32 key) : int32Query key = some (valueF64ToI32 key) := by
  obtain ⟨h1, h2⟩ := of_fits_int32 h
  simp [int32Query, h1, h2]

theorem fits_of_int32Query (h : int32Query key = some n) : Fits .int32 key ∧ n = valueF64ToI32 key := by
  unfold int32Query at h
  split_ifs at h with hb
  rw [Bool.and_eq_true] at hb
  refine ⟨?_, (Option.some.inj h).symm⟩
  simp [Fits, keyDomain, hb.1, hb.2, acceptsDomain]

theorem probeDomain_ne_int32 (h : domain ≠ .int32) : probeDomain domain ≠ .int32 := by
  revert domain
  decide

theorem probeEquals_probeDomain (domain : MalKeyDomain) (candidate key : MalValue) :
    probeEquals env (probeDomain domain) candidate key = probeEquals env domain candidate key := by
  cases domain <;> rfl

theorem fits_of_den_eq (hc : Fits domain candidate) (h : env.den candidate = env.den key) : Fits domain key := by
  by_cases hg : domain = .generic
  · subst hg
    simp [Fits, acceptsDomain]
  by_cases hs : domain = .string
  · subst hs
    have hcs := fits_string_iff.1 hc
    rw [den_of_string env hcs, KeyEnv.den] at h
    split_ifs at h with hks
    exact fits_string_iff.2 hks
  · obtain ⟨h1, h2⟩ := bits_of_fits hs hg hc
    rw [den_eq_bits_iff env h1 h2] at h
    exact h ▸ hc

/-- the key survives being stored under the domain -/
def Storable (domain : MalKeyDomain) (key : MalValue) : Prop :=
  domain = .int32 → valueFromF64OfI32 (valueF64ToI32 key) = key

theorem storable_of_fits (hc : Canonical key) (hf : Fits domain key) : Storable domain key := by
  intro hd
  exact valueFromF64OfI32_toI32 (of_fits_int32 (hd ▸ hf)).2 hc.notNegativeZero

end Maligator
