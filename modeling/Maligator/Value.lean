/-
Model of the NaN-boxed value (`value.h`) and of collection keys (`key.h`).

A `MalValue` is a 64-bit word: doubles below the tag base, and above it a class in the top 16 bits. A heap class names a
cell by its address; what a string or a BigInt cell holds is read from a `KeyEnv`. A collection key denotes what key
equality can see of it (`den`): the code units of a string, the value of a BigInt, the bits of everything else.

`keyValueEquals_iff`: `mal_key_value_equals` decides equality of denotations.
`keyHashValue_eq`: equal keys have equal hashes.
-/
import Maligator.Lib.Binary64

namespace Maligator

abbrev MalValue := BitVec 64

/-! ## value.h -/

variable (value : MalValue)

/-- the class selector: `value & MAL_VALUE_CLASS_MASK`, shifted down -/
def valueClass : ℕ := value.toNat / 2 ^ 48

def valueUndefined : MalValue := 0xFFF9000000000003#64
def valueEmpty : MalValue := 0xFFF9000000000009#64
def valueArrayHole : MalValue := 0xFFF900000000000A#64
def valueNegativeZero : MalValue := 0x8000000000000000#64

def valueIsF64 : Bool := decide (value.toNat < 0xFFF8 * 2 ^ 48)
def valueIsInt32 : Bool := valueClass value == 0xFFF8
def valueIsString : Bool := valueClass value == 0xFFFA
def valueIsSymbol : Bool := valueClass value == 0xFFFB
def valueIsBigint : Bool := valueClass value == 0xFFFC
def valueIsObject : Bool := decide (0xFFFD * 2 ^ 48 ≤ value.toNat)

/-- strings and everything above them are boxed pointers -/
def valueIsHeap : Bool := decide (0xFFFA * 2 ^ 48 ≤ value.toNat)

def valueToHeap : ℕ := value.toNat % 2 ^ 48

def valueToI32 : BitVec 32 := value.setWidth 32

/-- `mal_value_from_f64((f64) number)` for an i32 -/
def valueFromF64OfI32 (number : BitVec 32) : MalValue := Binary64.ofInt number.toInt

/-- `(i32) mal_value_to_f64(value)` -/
def valueF64ToI32 : BitVec 32 := BitVec.ofInt 32 (Binary64.toInt32 value)

/-! ## key.h -/

/-- what the cells behind string and BigInt values hold, and the string hash -/
structure KeyEnv where
  stringUnits : MalValue → List ℕ
  stringHash : List ℕ → BitVec 64
  bigintValue : MalValue → BitVec 128

def collectionCanonicalValue : MalValue :=
  if valueIsInt32 value then valueFromF64OfI32 (valueToI32 value)
  else if value = valueNegativeZero then valueFromF64OfI32 0
  else value

def stringEquals (env : KeyEnv) (left right : MalValue) : Bool := env.stringUnits left == env.stringUnits right

section

variable (env : KeyEnv) (n : BitVec 32) {value : MalValue} {left right : MalValue}

def keyValueEquals (left right : MalValue) : Bool :=
  if left = right then true
  else if valueIsString left && valueIsString right then stringEquals env left right
  else if valueIsBigint left && valueIsBigint right then env.bigintValue left == env.bigintValue right
  else false

/-- one folded 64 x 64 to 128 bit multiply -/
def keyHashMix (value : BitVec 64) : BitVec 64 :=
  let product : BitVec 128 := value.setWidth 128 * 0xa0761d6478bd642f#128
  product.setWidth 64 ^^^ (product >>> 64).setWidth 64

def keyHashValue (value : MalValue) : BitVec 64 :=
  if valueIsString value then keyHashMix (env.stringHash (env.stringUnits value))
  else if valueIsBigint value then
    let bits := env.bigintValue value
    keyHashMix (bits.setWidth 64 ^^^ keyHashMix ((bits >>> 64).setWidth 64 ^^^ 0x9e3779b97f4a7c15#64))
  else keyHashMix value

/-! ## What a key denotes -/

inductive CollectionKey where
  | string (units : List ℕ)
  | bigint (value : BitVec 128)
  | bits (value : MalValue)
  deriving DecidableEq

def KeyEnv.den (value : MalValue) : CollectionKey :=
  if valueIsString value then .string (env.stringUnits value)
  else if valueIsBigint value then .bigint (env.bigintValue value)
  else .bits value

theorem not_bigint_of_string (h : valueIsString value = true) : valueIsBigint value = false := by
  simp only [valueIsString, valueIsBigint, beq_iff_eq, beq_eq_false_iff_ne] at *
  omega

theorem keyValueEquals_iff (left right : MalValue) :
    keyValueEquals env left right = true ↔ env.den left = env.den right := by
  unfold keyValueEquals KeyEnv.den stringEquals
  by_cases heq : left = right
  · simp [heq]
  · cases hl : valueIsString left <;> cases hr : valueIsString right <;>
      cases hlb : valueIsBigint left <;> cases hrb : valueIsBigint right <;> simp_all [not_bigint_of_string]

theorem keyHashValue_eq (h : env.den left = env.den right) : keyHashValue env left = keyHashValue env right := by
  unfold KeyEnv.den at h
  unfold keyHashValue
  split_ifs at h ⊢ <;> simp_all

theorem den_of_bits (hs : valueIsString value = false) (hb : valueIsBigint value = false)
    : env.den value = .bits value := by
  simp [KeyEnv.den, hs, hb]

theorem den_eq_bits_iff (hs : valueIsString left = false) (hb : valueIsBigint left = false)
    : env.den left = env.den right ↔ left = right := by
  constructor
  · intro h
    rw [den_of_bits env hs hb, KeyEnv.den] at h
    split_ifs at h
    simpa using h
  · rintro rfl
    rfl

theorem keyHashValue_of_bits (hs : valueIsString value = false) (hb : valueIsBigint value = false)
    : keyHashValue env value = keyHashMix value := by
  simp [keyHashValue, hs, hb]

/-! ## Canonical keys -/

/-- a key as collection normalization leaves it; the EMPTY sentinel is never a key -/
structure Canonical (key : MalValue) : Prop where
  notInt32 : valueIsInt32 key = false
  notNegativeZero : key ≠ valueNegativeZero
  notEmpty : key ≠ valueEmpty

theorem toInt_bounds : -(2 ^ 31) ≤ n.toInt ∧ n.toInt < 2 ^ 31 :=
  ⟨by simpa using BitVec.le_toInt n, by simpa using BitVec.toInt_lt (x := n)⟩

theorem valueIsF64_ofI32 : valueIsF64 (valueFromF64OfI32 n) = true := by
  obtain ⟨hlo, hhi⟩ := toInt_bounds n
  have h53 : n.toInt.natAbs < 2 ^ 53 := by omega
  rw [valueIsF64, decide_eq_true_eq, valueFromF64OfI32, Binary64.toNat_ofInt h53, Binary64.ofNatMag]
  split_ifs with hneg h0 h0
  · norm_num
  · have hl : Nat.log 2 n.toInt.natAbs < 32 := Nat.log_lt_of_lt_pow' (by decide) (by omega)
    have hs := Binary64.significand_bounds h0 h53
    omega
  · norm_num
  have hl : Nat.log 2 n.toInt.natAbs < 32 := Nat.log_lt_of_lt_pow' (by decide) (by omega)
  have hs := Binary64.significand_bounds h0 h53
  omega

theorem valueF64ToI32_ofI32 : valueF64ToI32 (valueFromF64OfI32 n) = n := by
  obtain ⟨hlo, hhi⟩ := toInt_bounds n
  rw [valueF64ToI32, valueFromF64OfI32, Binary64.toInt32_ofInt hlo hhi, BitVec.ofInt_toInt]

/-- **Packing a key loses nothing.** A key that is an int32 and not negative zero is the double of its i32. -/
theorem valueFromF64OfI32_toI32 {key : MalValue} (h : Binary64.isInt32 key = true) (hz : key ≠ valueNegativeZero) :
    valueFromF64OfI32 (valueF64ToI32 key) = key := by
  obtain ⟨_, hlo, hhi⟩ := Binary64.isInt32_spec h
  have hint : (BitVec.ofInt 32 (Binary64.toInt32 key)).toInt = Binary64.toInt32 key := by
    rw [BitVec.toInt_ofInt]
    exact Int.bmod_eq_of_le (by norm_num; exact hlo) (by norm_num; exact hhi)
  rw [valueF64ToI32, valueFromF64OfI32, hint]
  refine Binary64.ofInt_toInt32 h fun hn => hz ?_
  exact BitVec.eq_of_toNat_eq hn

theorem ofI32_ne_negativeZero : valueFromF64OfI32 n ≠ valueNegativeZero := by
  intro h
  have hn : n = 0 := by
    rw [← valueF64ToI32_ofI32 n, h, valueF64ToI32, Binary64.toInt32,
      show Binary64.finite? valueNegativeZero = some 0 by decide, Option.getD_some, Int.zero_tdiv]
    rfl
  subst hn
  cases h

theorem canonical_ofI32 : Canonical (valueFromF64OfI32 n) := by
  have hlt := valueIsF64_ofI32 n
  refine ⟨?_, ofI32_ne_negativeZero n, ?_⟩
  · simp only [valueIsF64, valueIsInt32, valueClass, decide_eq_true_eq, beq_eq_false_iff_ne] at hlt ⊢
    omega
  · intro h
    rw [h] at hlt
    cases hlt

end

theorem canonical_collectionCanonicalValue {value : MalValue} (h : value ≠ valueEmpty) :
    Canonical (collectionCanonicalValue value) := by
  rw [collectionCanonicalValue]
  split_ifs with h1 h2
  · exact canonical_ofI32 _
  · exact canonical_ofI32 _
  · exact ⟨by simpa using h1, h2, h⟩

theorem collectionCanonicalValue_of_canonical {key : MalValue} (h : Canonical key) :
    collectionCanonicalValue key = key := by
  rw [collectionCanonicalValue, h.notInt32, if_neg (by simp), if_neg h.notNegativeZero]

end Maligator
