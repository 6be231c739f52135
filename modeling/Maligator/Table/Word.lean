/-
The key word of a property row (`table.c`, `table.h`) and the keys it stands for.

One 64-bit word holds the key's identity (48 bits of pointer or index and two bits of kind), seven property flags, the
ownership bit of the payload and six bits of the key's hash. Kind zero is a dead row. A property key denotes an index, the
code units of a string or a symbol (`TableKey`); strings are compared by content, symbols by identity, and an index by its
number whether it was spelled as an int32 or as a double.

`keyEquals_iff`: the comparison of a row with a query decides equality of denotations, with and without the hash filter.
-/
import Maligator.Value

namespace Maligator.Table

open Function Option

/-! ## key.h -/

inductive MalKeyKind where
  | index
  | string
  | symbol
  | number
  | object
  | static
  deriving DecidableEq, Repr

structure MalKey where
  kind : MalKeyKind
  value : MalValue
  deriving DecidableEq, Repr

def valueFromU32 (value : BitVec 32) : MalValue :=
  if value.toNat ≤ 2 ^ 31 - 1 then 0xFFF8000000000000#64 ||| value.setWidth 64 else Binary64.ofInt value.toNat

/-- `(u32) number` under `number >= 0 && number < (f64) UINT32_MAX && (f64) (u32) number == number` -/
def f64Index (number : BitVec 64) : Option (BitVec 32) :=
  match Binary64.finite? number with
  | none => none
  | some x =>
    if 0 ≤ x ∧ x < (2 ^ 32 - 1 : ℤ) * Binary64.unit ∧ x.tdiv Binary64.unit * Binary64.unit = x then
      some (BitVec.ofInt 32 (x.tdiv Binary64.unit))
    else none

def valueIsNil (value : MalValue) : Bool := value == 0xFFF9000000000002#64 || value == valueUndefined

def valueIsBoolean (value : MalValue) : Bool := value == 0xFFF9000000000004#64 || value == 0xFFF9000000000005#64

def keyKindOf (value : MalValue) : MalKeyKind :=
  if valueIsString value then .string
  else if valueIsSymbol value then .symbol
  else if valueIsObject value then .object
  else if valueIsInt32 value then .index
  else if valueIsF64 value && (f64Index value).isSome then .index
  else if valueIsNil value || valueIsBoolean value then .static
  else .number

def keyFromValue (value : MalValue) : MalKey := ⟨keyKindOf value, value⟩

/-! ## table.h -/

def kindMask : BitVec 64 := 0x0003000000000000#64
def kindIndex : BitVec 64 := 0x0001000000000000#64
def kindString : BitVec 64 := 0x0002000000000000#64
def kindSymbol : BitVec 64 := 0x0003000000000000#64
def pointerMask : BitVec 64 := 0x0000ffffffffffff#64
def identityMask : BitVec 64 := 0x0003ffffffffffff#64
def ownsData : BitVec 64 := 0x0200000000000000#64
def flagsMask : BitVec 64 := 0x01fc000000000000#64
def hashMask : BitVec 64 := 0xfc00000000000000#64

/-- the payload is a value or the pointer to owned data -/
structure MalTableEntry where
  key : BitVec 64
  payload : BitVec 64
  deriving DecidableEq, Repr

/-! ## table.c -/

def rowLive (entry : MalTableEntry) : Bool := entry.key &&& kindMask != 0

def rowOwned (entry : MalTableEntry) : Bool := entry.key &&& ownsData != 0

/-- `none` is an abort -/
def encodeKey (key : MalKey) : Option (BitVec 64) :=
  match key.kind with
  | .index =>
    if valueIsInt32 key.value then
      if (valueToI32 key.value).toInt < 0 then none else some (kindIndex ||| (valueToI32 key.value).setWidth 64)
    else if valueIsF64 key.value then (f64Index key.value).map fun index => kindIndex ||| index.setWidth 64
    else none
  | .string => if valueIsString key.value then some (kindString ||| (key.value &&& pointerMask)) else none
  | .symbol => if valueIsSymbol key.value then some (kindSymbol ||| (key.value &&& pointerMask)) else none
  | _ => none

def keyValue (key : BitVec 64) : MalValue :=
  if key &&& kindMask = kindIndex then valueFromU32 (key.setWidth 32)
  else if key &&& kindMask = kindString then 0xFFFA000000000000#64 ||| (key &&& pointerMask)
  else if key &&& kindMask = kindSymbol then 0xFFFB000000000000#64 ||| (key &&& pointerMask)
  else valueEmpty

def decodeKey (key : BitVec 64) : MalKey where
  kind := if key &&& kindMask = kindIndex then .index else if key &&& kindMask = kindString then .string else .symbol
  value := keyValue key

/-- the strings of the heap: their code units and the hash each has cached -/
structure StringMemory where
  units : MalValue → List ℕ
  hash : MalValue → BitVec 64
  hashValid : MalValue → Bool

section

variable (contentHash : List ℕ → BitVec 64) (memory : StringMemory)

/-- `mal_string_hash`: fills in the cache -/
def stringHash (string : MalValue) : StringMemory × BitVec 64 :=
  if memory.hashValid string then (memory, memory.hash string)
  else
    let hash := contentHash (memory.units string)
    ({ memory with
        hash := Function.update memory.hash string hash
        hashValid := Function.update memory.hashValid string true }, hash)

def keyHash (key : BitVec 64) : StringMemory × BitVec 64 :=
  if key &&& kindMask = kindString then
    let hashed := stringHash contentHash memory (keyValue key)
    (hashed.1, keyHashMix hashed.2)
  else (memory, keyHashMix (keyValue key))

/-- the strings' own comparison is by content; an indexed search compares the cached hashes first -/
def keyEquals (entry : MalTableEntry) (key : BitVec 64) (hashed : Bool) : Bool :=
  let candidate := entry.key &&& identityMask
  if candidate = key then true
  else if candidate &&& kindMask ≠ kindString ∨ key &&& kindMask ≠ kindString then false
  else if hashed ∧ memory.hash (keyValue candidate) ≠ memory.hash (keyValue key) then false
  else memory.units (keyValue candidate) == memory.units (keyValue key)

end

def hashFingerprint (hash : BitVec 64) : BitVec 64 := ((hash >>> 51) &&& 0x3f#64) <<< 58

/-! ## What a key denotes -/

inductive TableKey where
  | index (number : ℕ)
  | string (units : List ℕ)
  | symbol (identity : MalValue)
  deriving DecidableEq, Repr

def integerValue (value : MalValue) : Option ℤ :=
  if valueIsInt32 value then some (valueToI32 value).toInt
  else if valueIsF64 value then
    (Binary64.finite? value).bind fun x => if (Binary64.unit : ℤ) ∣ x then some (x / Binary64.unit) else none
  else none

/-- what a property key stands for; nothing when it is not one -/
def MalKey.den (units : MalValue → List ℕ) (key : MalKey) : Option TableKey :=
  match key.kind with
  | .index => (integerValue key.value).bind fun n => if 0 ≤ n ∧ n < 2 ^ 32 - 1 then some (.index n.toNat) else none
  | .string => if valueIsString key.value then some (.string (units key.value)) else none
  | .symbol => if valueIsSymbol key.value then some (.symbol key.value) else none
  | _ => none

def wordKey (units : MalValue → List ℕ) (key : BitVec 64) : TableKey :=
  if key &&& kindMask = kindIndex then .index (key.setWidth 32).toNat
  else if key &&& kindMask = kindString then .string (units (keyValue key))
  else .symbol (keyValue key)

/-! ## Bits of the word -/

/-- the words that `mal_table_encode_key` returns -/
inductive Encoded : BitVec 64 → Prop where
  | index (n : BitVec 32) (h : n.toNat < 2 ^ 32 - 1) : Encoded (kindIndex ||| n.setWidth 64)
  | string (p : BitVec 64) : Encoded (kindString ||| (p &&& pointerMask))
  | symbol (p : BitVec 64) : Encoded (kindSymbol ||| (p &&& pointerMask))

theorem setWidth_and_mask (n : BitVec 32) : n.setWidth 64 = n.setWidth 64 &&& 0x00000000ffffffff#64 := by
  apply BitVec.eq_of_toNat_eq
  have h := Nat.and_two_pow_sub_one_eq_mod (n.setWidth 64).toNat 32
  rw [BitVec.toNat_and]
  have hm : (0x00000000ffffffff#64).toNat = 2 ^ 32 - 1 := by decide
  rw [hm, h, BitVec.toNat_setWidth]
  omega

variable {m t w e' : BitVec 64} {c : ℕ} (p : BitVec 64) {x m' : BitVec 64}

theorem and_and_eq_zero (h : m &&& m' = 0#64) : x &&& m &&& m' = 0#64 := by
  rw [BitVec.and_assoc, h, BitVec.and_zero]

theorem and_and_eq_self (h : m &&& m' = m) : x &&& m &&& m' = x &&& m := by
  rw [BitVec.and_assoc, h]

theorem Encoded.and_identityMask {key : BitVec 64} (h : Encoded key) : key &&& identityMask = key := by
  cases h with
  | index n h =>
    rw [BitVec.and_or_distrib_right, setWidth_and_mask, and_and_eq_self (by decide)]
    rfl
  | string p | symbol p => rw [BitVec.and_or_distrib_right, and_and_eq_self (by decide)]; rfl

theorem kind_index (n : BitVec 32) : (kindIndex ||| n.setWidth 64) &&& kindMask = kindIndex := by
  rw [BitVec.and_or_distrib_right, setWidth_and_mask, and_and_eq_zero (by decide)]
  rfl

theorem kind_string : (kindString ||| (p &&& pointerMask)) &&& kindMask = kindString := by
  rw [BitVec.and_or_distrib_right, and_and_eq_zero (by decide)]
  rfl

theorem kind_symbol : (kindSymbol ||| (p &&& pointerMask)) &&& kindMask = kindSymbol := by
  rw [BitVec.and_or_distrib_right, and_and_eq_zero (by decide)]
  rfl

theorem setWidth_index (n : BitVec 32) : (kindIndex ||| n.setWidth 64).setWidth 32 = n := by
  rw [BitVec.setWidth_or, BitVec.setWidth_setWidth_of_le n (by decide), BitVec.setWidth_eq,
    show kindIndex.setWidth 32 = 0#32 by decide, BitVec.zero_or]

theorem pointer_or {p : BitVec 64} (ht : t &&& pointerMask = 0#64) :
    (t ||| (p &&& pointerMask)) &&& pointerMask = p &&& pointerMask := by
  rw [BitVec.and_or_distrib_right, ht, BitVec.zero_or, and_and_eq_self (by decide)]

theorem toNat_tag_or (ht : t.toNat = c * 2 ^ 48) (p : BitVec 64) :
    (t ||| (p &&& pointerMask)).toNat = c * 2 ^ 48 + p.toNat % 2 ^ 48 := by
  have hlt : p.toNat % 2 ^ 48 < 2 ^ 48 := Nat.mod_lt _ (by decide)
  rw [BitVec.toNat_or, BitVec.toNat_and, show pointerMask.toNat = 2 ^ 48 - 1 by decide,
    Nat.and_two_pow_sub_one_eq_mod, ht, ← Nat.shiftLeft_eq, ← Nat.shiftLeft_add_eq_or_of_lt hlt]

theorem valueClass_tag_or (ht : t.toNat = c * 2 ^ 48) (p : BitVec 64) : valueClass (t ||| (p &&& pointerMask)) = c := by
  rw [valueClass, toNat_tag_or ht]
  omega

theorem tag_or_pointer {v : BitVec 64} (ht : t.toNat = c * 2 ^ 48) (hv : valueClass v = c) :
    t ||| (v &&& pointerMask) = v := by
  apply BitVec.eq_of_toNat_eq
  rw [toNat_tag_or ht, ← hv, valueClass]
  omega

theorem keyValue_index (n : BitVec 32) : keyValue (kindIndex ||| n.setWidth 64) = valueFromU32 n := by
  rw [keyValue, kind_index, if_pos rfl, setWidth_index]

theorem keyValue_string :
    keyValue (kindString ||| (p &&& pointerMask)) = 0xFFFA000000000000#64 ||| (p &&& pointerMask) := by
  rw [keyValue, kind_string, if_neg (by decide), if_pos rfl, pointer_or (by decide)]

theorem keyValue_symbol :
    keyValue (kindSymbol ||| (p &&& pointerMask)) = 0xFFFB000000000000#64 ||| (p &&& pointerMask) := by
  rw [keyValue, kind_symbol, if_neg (by decide), if_neg (by decide), if_pos rfl, pointer_or (by decide)]

theorem string_tag : (0xFFFA000000000000#64).toNat = 0xFFFA * 2 ^ 48 := by decide

theorem symbol_tag : (0xFFFB000000000000#64).toNat = 0xFFFB * 2 ^ 48 := by decide

theorem int32_tag : (0xFFF8000000000000#64).toNat = 0xFFF8 * 2 ^ 48 := by decide

/-! ## Index values -/

variable {n : BitVec 32} {e : BitVec 64} {units : MalValue → List ℕ} {v : MalValue}

theorem toNat_valueFromU32_small (h : n.toNat ≤ 2 ^ 31 - 1) : (valueFromU32 n).toNat = 0xFFF8 * 2 ^ 48 + n.toNat := by
  have hmask : n.setWidth 64 = n.setWidth 64 &&& pointerMask := by
    rw [setWidth_and_mask, and_and_eq_self (by decide)]
  rw [valueFromU32, if_pos h, hmask, toNat_tag_or int32_tag, BitVec.toNat_setWidth]
  omega

theorem valueFromU32_large (h : ¬ n.toNat ≤ 2 ^ 31 - 1) : valueFromU32 n = Binary64.ofInt n.toNat := if_neg h

theorem natAbs_lt (n : BitVec 32) : (n.toNat : ℤ).natAbs < 2 ^ 53 := by
  omega

theorem valueIsF64_ofInt (n : BitVec 32) : valueIsF64 (Binary64.ofInt n.toNat) = true := by
  have hlt := Binary64.ofNatMag_lt (natAbs_lt n)
  rw [valueIsF64, decide_eq_true_eq, Binary64.toNat_ofInt (natAbs_lt n), if_neg (by omega)]
  omega

theorem valueClass_of_f64 (h : valueIsF64 v = true) : valueClass v < 0xFFF8 := by
  rw [valueIsF64, decide_eq_true_eq] at h
  rw [valueClass]
  omega

theorem f64Index_eq_some (h : f64Index w = some n) :
    n.toNat < 2 ^ 32 - 1 ∧ Binary64.finite? w = some ((n.toNat : ℤ) * Binary64.unit) := by
  unfold f64Index at h
  cases hx : Binary64.finite? w with
  | none => rw [hx] at h; cases h
  | some x =>
    rw [hx] at h
    dsimp only at h
    split_ifs at h with hc
    obtain ⟨h0, hlt, hdiv⟩ := hc
    rw [some.injEq] at h
    have hpos := Binary64.unit_pos
    rw [← hdiv] at h0 hlt
    have hq0 : 0 ≤ x.tdiv Binary64.unit := nonneg_of_mul_nonneg_left h0 hpos
    have hq : x.tdiv Binary64.unit < 2 ^ 32 - 1 := lt_of_mul_lt_mul_right hlt hpos.le
    have hn : (n.toNat : ℤ) = x.tdiv Binary64.unit := by
      rw [← h, BitVec.toNat_ofInt]
      omega
    refine ⟨by omega, ?_⟩
    rw [hn, hdiv]

theorem f64Index_of_finite {n : ℤ} (h0 : 0 ≤ n) (hn : n < 2 ^ 32 - 1)
    (h : Binary64.finite? w = some (n * Binary64.unit)) : f64Index w = some (BitVec.ofInt 32 n) := by
  have hpos := Binary64.unit_pos
  unfold f64Index
  rw [h]
  dsimp only
  rw [Int.mul_tdiv_cancel _ hpos.ne', if_pos]
  exact ⟨mul_nonneg h0 hpos.le, mul_lt_mul_of_pos_right hn hpos, rfl⟩

theorem f64Index_iff (w : BitVec 64) : (f64Index w).map (fun n => TableKey.index n.toNat) =
      ((Binary64.finite? w).bind fun x => if (Binary64.unit : ℤ) ∣ x then some (x / Binary64.unit) else none).bind
        fun n => if 0 ≤ n ∧ n < 2 ^ 32 - 1 then some (TableKey.index n.toNat) else none := by
  have hpos := Binary64.unit_pos
  cases hidx : f64Index w with
  | some n =>
    obtain ⟨hlt, hfin⟩ := f64Index_eq_some hidx
    rw [hfin, bind_some, if_pos (Dvd.intro_left _ rfl), Int.mul_ediv_cancel _ hpos.ne', bind_some, if_pos (by omega)]
    rfl
  | none =>
    cases hx : Binary64.finite? w with
    | none => rfl
    | some x =>
      rw [bind_some]
      split_ifs with hdvd
      · rw [bind_some]
        split_ifs with hr
        · have := f64Index_of_finite hr.1 hr.2 (hx.trans (by rw [Int.ediv_mul_cancel hdvd]))
          rw [hidx] at this
          cases this
        · rfl
      · rfl

theorem valueToI32_small (h : n.toNat ≤ 2 ^ 31 - 1) : valueToI32 (valueFromU32 n) = n := by
  apply BitVec.eq_of_toNat_eq
  rw [valueToI32, BitVec.toNat_setWidth, toNat_valueFromU32_small h]
  omega

theorem f64Index_ofInt (h : n.toNat < 2 ^ 32 - 1) : f64Index (Binary64.ofInt n.toNat) = some n := by
  rw [f64Index_of_finite (n := n.toNat) (by omega) (by omega) (Binary64.finite?_ofInt (natAbs_lt n))]
  simp

/-! ## Encoding -/

theorem wordKey_index (units : MalValue → List ℕ) (n : BitVec 32) :
    wordKey units (kindIndex ||| n.setWidth 64) = .index n.toNat := by
  rw [wordKey, kind_index, if_pos rfl, setWidth_index]

theorem wordKey_string (units : MalValue → List ℕ) (p : BitVec 64) :
    wordKey units (kindString ||| (p &&& pointerMask)) =
      .string (units (0xFFFA000000000000#64 ||| (p &&& pointerMask))) := by
  rw [wordKey, kind_string, if_neg (by decide), if_pos rfl, keyValue_string]

theorem wordKey_symbol (units : MalValue → List ℕ) (p : BitVec 64) :
    wordKey units (kindSymbol ||| (p &&& pointerMask)) = .symbol (0xFFFB000000000000#64 ||| (p &&& pointerMask)) := by
  rw [wordKey, kind_symbol, if_neg (by decide), if_neg (by decide), keyValue_symbol]

theorem int32_index (n : BitVec 32) :
    (if 0 ≤ n.toInt ∧ n.toInt < 2 ^ 32 - 1 then some (TableKey.index n.toInt.toNat) else none) =
      if n.toInt < 0 then none else some (TableKey.index n.toNat) := by
  have hi : n.toInt = if 2 * n.toNat < 2 ^ 32 then (n.toNat : ℤ) else n.toNat - 2 ^ 32 := BitVec.toInt_eq_toNat_cond n
  by_cases hneg : n.toInt < 0
  · rw [if_neg (by omega), if_pos hneg]
  rw [if_pos (by omega), if_neg hneg]
  split_ifs at hi with hc
  · rw [hi, Int.toNat_natCast]
  · omega

/-- **Encoding.** A key is encoded when it denotes something, and its word denotes the same. -/
theorem encodeKey_spec (units : MalValue → List ℕ) (key : MalKey) :
    (encodeKey key).map (wordKey units) = key.den units ∧ ∀ e, encodeKey key = some e → Encoded e := by
  obtain ⟨kind, v⟩ := key
  cases kind with
  | index =>
    rw [encodeKey, MalKey.den, integerValue]
    dsimp only
    by_cases hint : valueIsInt32 v = true
    · rw [if_pos hint, if_pos hint, bind_some, int32_index]
      split_ifs with hneg
      · exact ⟨rfl, by simp⟩
      refine ⟨by rw [map_some, wordKey_index], fun e he => ?_⟩
      cases he
      refine Encoded.index _ ?_
      have hi := BitVec.toInt_eq_toNat_cond (valueToI32 v)
      split_ifs at hi <;> omega
    rw [if_neg hint, if_neg hint]
    by_cases hf : valueIsF64 v = true
    · rw [if_pos hf, if_pos hf, ← f64Index_iff, map_map]
      refine ⟨map_congr fun n _ => wordKey_index units n, fun e he => ?_⟩
      obtain ⟨n, hn, rfl⟩ := map_eq_some_iff.1 he
      exact Encoded.index n (f64Index_eq_some hn).1
    · rw [if_neg hf, if_neg hf]
      exact ⟨rfl, by simp⟩
  | string =>
    rw [encodeKey, MalKey.den]
    dsimp only
    split_ifs with hs
    · refine ⟨?_, fun e he => by cases he; exact Encoded.string v⟩
      rw [map_some, wordKey_string, tag_or_pointer string_tag (by simpa [valueIsString] using hs)]
    · exact ⟨rfl, by simp⟩
  | symbol =>
    rw [encodeKey, MalKey.den]
    dsimp only
    split_ifs with hs
    · refine ⟨?_, fun e he => by cases he; exact Encoded.symbol v⟩
      rw [map_some, wordKey_symbol, tag_or_pointer symbol_tag (by simpa [valueIsSymbol] using hs)]
    · exact ⟨rfl, by simp⟩
  | number | object | static => exact ⟨rfl, fun e he => by cases he⟩

theorem keyKindOf_of_class (h : valueClass v = c) :
    (c = 0xFFFA → keyKindOf v = .string) ∧ (c = 0xFFFB → keyKindOf v = .symbol) ∧ (c = 0xFFF8 → keyKindOf v = .index) := by
  have hobj : valueIsObject v = true → 0xFFFD ≤ valueClass v := by
    intro h
    rw [valueIsObject, decide_eq_true_eq] at h
    rw [valueClass]
    omega
  refine ⟨fun hc => ?_, fun hc => ?_, fun hc => ?_⟩
  · simp [keyKindOf, valueIsString, h, hc]
  · simp [keyKindOf, valueIsString, valueIsSymbol, h, hc]
  · have hno : ¬ valueIsObject v = true := fun ho => by have := hobj ho; omega
    simp [keyKindOf, valueIsString, valueIsSymbol, hno, valueIsInt32, h, hc]

theorem keyKindOf_f64 (hf : valueIsF64 v = true) (hn : f64Index v = some n) : keyKindOf v = .index := by
  have hclass := valueClass_of_f64 hf
  have hobj : ¬ valueIsObject v = true := by
    rw [valueIsObject, decide_eq_true_eq]
    rw [valueClass] at hclass
    omega
  have hstring : ¬ valueIsString v = true := by rw [valueIsString, beq_iff_eq]; omega
  have hsymbol : ¬ valueIsSymbol v = true := by rw [valueIsSymbol, beq_iff_eq]; omega
  have hint : ¬ valueIsInt32 v = true := by rw [valueIsInt32, beq_iff_eq]; omega
  rw [keyKindOf, if_neg hstring, if_neg hsymbol, if_neg hobj, if_neg hint, if_pos (by rw [hf, hn]; rfl)]

theorem valueClass_valueFromU32 (h : n.toNat ≤ 2 ^ 31 - 1) : valueClass (valueFromU32 n) = 0xFFF8 := by
  rw [valueClass, toNat_valueFromU32_small h]
  omega

theorem keyFromValue_keyValue (h : Encoded e) : keyFromValue (keyValue e) = decodeKey e := by
  have hkind : keyKindOf (keyValue e) = (decodeKey e).kind := by
    cases h with
    | index n h =>
      rw [decodeKey, keyValue_index, kind_index]
      by_cases hsmall : n.toNat ≤ 2 ^ 31 - 1
      · exact (keyKindOf_of_class (valueClass_valueFromU32 hsmall)).2.2 rfl
      · rw [valueFromU32_large hsmall]
        exact keyKindOf_f64 (valueIsF64_ofInt n) (f64Index_ofInt h)
    | string p =>
      rw [decodeKey, keyValue_string, kind_string]
      exact (keyKindOf_of_class (valueClass_tag_or string_tag p)).1 rfl
    | symbol p =>
      rw [decodeKey, keyValue_symbol, kind_symbol]
      exact (keyKindOf_of_class (valueClass_tag_or symbol_tag p)).2.1 rfl
  rw [keyFromValue, hkind]
  rfl

/-- **Decoding.** What a word decodes to is encoded as that word. -/
theorem encodeKey_decodeKey (h : Encoded e) : encodeKey (decodeKey e) = some e := by
  cases h with
  | index n h =>
    rw [decodeKey, kind_index, keyValue_index, if_pos rfl, encodeKey]
    by_cases hsmall : n.toNat ≤ 2 ^ 31 - 1
    · have hint : valueIsInt32 (valueFromU32 n) = true := by
        rw [valueIsInt32, valueClass_valueFromU32 hsmall]
        rfl
      have hpos : ¬ n.toInt < 0 := by
        rw [BitVec.toInt_eq_toNat_cond]
        omega
      rw [if_pos hint, valueToI32_small hsmall, if_neg hpos]
    have hf := valueIsF64_ofInt n
    have hclass := valueClass_of_f64 hf
    have hint : ¬ valueIsInt32 (Binary64.ofInt n.toNat) = true := by
      rw [valueIsInt32, beq_iff_eq]
      omega
    rw [valueFromU32_large hsmall, if_neg hint, if_pos hf, f64Index_ofInt h]
    rfl
  | string p =>
    have hs : valueIsString (0xFFFA000000000000#64 ||| (p &&& pointerMask)) = true := by
      rw [valueIsString, valueClass_tag_or string_tag]
      rfl
    rw [decodeKey, kind_string, keyValue_string, if_neg (by decide), if_pos rfl, encodeKey]
    rw [if_pos hs, pointer_or (by decide)]
  | symbol p =>
    have hs : valueIsSymbol (0xFFFB000000000000#64 ||| (p &&& pointerMask)) = true := by
      rw [valueIsSymbol, valueClass_tag_or symbol_tag]
      rfl
    rw [decodeKey, kind_symbol, keyValue_symbol, if_neg (by decide), if_neg (by decide), encodeKey]
    rw [if_pos hs, pointer_or (by decide)]

/-! ## Reading a row's word through its identity -/

theorem kind_identity (w : BitVec 64) : w &&& identityMask &&& kindMask = w &&& kindMask := by
  rw [BitVec.and_assoc]
  rfl

theorem pointer_identity (w : BitVec 64) : w &&& identityMask &&& pointerMask = w &&& pointerMask := by
  rw [BitVec.and_assoc]
  rfl

theorem setWidth_identity (w : BitVec 64) : (w &&& identityMask).setWidth 32 = w.setWidth 32 := by
  rw [BitVec.setWidth_and, show identityMask.setWidth 32 = BitVec.allOnes 32 by decide, BitVec.and_allOnes]

theorem keyValue_identity (w : BitVec 64) : keyValue (w &&& identityMask) = keyValue w := by
  rw [keyValue, keyValue, kind_identity, pointer_identity, setWidth_identity]

theorem decodeKey_identity (w : BitVec 64) : decodeKey (w &&& identityMask) = decodeKey w := by
  rw [decodeKey, decodeKey, kind_identity, keyValue_identity]

theorem wordKey_identity (units : MalValue → List ℕ) (w : BitVec 64) :
    wordKey units (w &&& identityMask) = wordKey units w := by
  rw [wordKey, wordKey, kind_identity, keyValue_identity, setWidth_identity]

theorem keyHash_identity (contentHash : List ℕ → BitVec 64) (memory : StringMemory) (w : BitVec 64) :
    keyHash contentHash memory (w &&& identityMask) = keyHash contentHash memory w := by
  rw [keyHash, keyHash, kind_identity, keyValue_identity]

/-! ## Hashes -/

def MemoryOk (contentHash : List ℕ → BitVec 64) (memory : StringMemory) : Prop :=
  ∀ s, memory.hashValid s = true → memory.hash s = contentHash (memory.units s)

/-- some more hashes are cached and nothing else has changed -/
structure Caches (contentHash : List ℕ → BitVec 64) (memory memory' : StringMemory) : Prop where
  units : memory'.units = memory.units
  valid : ∀ s, memory.hashValid s = true → memory'.hashValid s = true
  ok : MemoryOk contentHash memory → MemoryOk contentHash memory'

variable {contentHash : List ℕ → BitVec 64} {memory memory' : StringMemory}

theorem Caches.refl (contentHash : List ℕ → BitVec 64) (memory : StringMemory) : Caches contentHash memory memory :=
  ⟨rfl, fun _ => id, id⟩

theorem Caches.trans {memory'' : StringMemory} (h : Caches contentHash memory memory')
    (h' : Caches contentHash memory' memory'') : Caches contentHash memory memory'' :=
  ⟨h'.units.trans h.units, fun s hs => h'.valid s (h.valid s hs), fun hm => h'.ok (h.ok hm)⟩

theorem stringHash_spec (hm : MemoryOk contentHash memory) (s : MalValue) :
    Caches contentHash memory (stringHash contentHash memory s).1 ∧
      (stringHash contentHash memory s).1.hashValid s = true ∧
      (stringHash contentHash memory s).2 = contentHash (memory.units s) := by
  unfold stringHash
  split_ifs with hv
  · exact ⟨Caches.refl _ _, hv, hm s hv⟩
  refine ⟨⟨rfl, fun s' hs' => ?_, fun _ s' hs' => ?_⟩, update_self .., rfl⟩
  · dsimp only
    by_cases hs : s' = s
    · rw [hs, update_self]
    · rwa [update_of_ne hs]
  · dsimp only at hs' ⊢
    by_cases hs : s' = s
    · rw [hs, update_self]
    · rw [update_of_ne hs] at hs' ⊢
      exact hm s' hs'

def Cached (memory : StringMemory) (w : BitVec 64) : Prop :=
  w &&& kindMask = kindString → memory.hashValid (keyValue w) = true

theorem Cached.mono (h : Cached memory w) (hc : Caches contentHash memory memory') : Cached memory' w :=
  fun hk => hc.valid _ (h hk)

theorem cached_identity : Cached memory (w &&& identityMask) ↔ Cached memory w := by
  rw [Cached, Cached, kind_identity, keyValue_identity]

def wordEnv (contentHash : List ℕ → BitVec 64) (units : MalValue → List ℕ) : KeyEnv := ⟨units, contentHash, fun _ => 0⟩

theorem Encoded.isString (h : Encoded e) :
    valueIsString (keyValue e) = decide (e &&& kindMask = kindString) ∧ valueIsBigint (keyValue e) = false := by
  have key : ∀ {v : MalValue} {c : ℕ}, valueClass v = c → c ≠ 0xFFFC →
      valueIsString v = decide (c = 0xFFFA) ∧ valueIsBigint v = false := by
    intro v c hv hc
    rw [valueIsString, valueIsBigint, hv]
    exact ⟨rfl, by simpa using hc⟩
  cases h with
  | index n h =>
    rw [keyValue_index, kind_index]
    by_cases hsmall : n.toNat ≤ 2 ^ 31 - 1
    · exact key (valueClass_valueFromU32 hsmall) (by decide)
    have hclass := valueClass_of_f64 (valueIsF64_ofInt n)
    rw [valueFromU32_large hsmall]
    obtain ⟨hs, hb⟩ := key (v := Binary64.ofInt n.toNat) rfl (by omega)
    refine ⟨hs.trans ?_, hb⟩
    rw [decide_eq_false (by omega)]
    rfl
  | string p =>
    rw [keyValue_string, kind_string]
    exact key (valueClass_tag_or string_tag p) (by decide)
  | symbol p =>
    rw [keyValue_symbol, kind_symbol]
    exact key (valueClass_tag_or symbol_tag p) (by decide)

/-- **Hash of a word.** It is the hash of the key it stands for, and afterwards the string has it cached. -/
theorem keyHash_spec (hm : MemoryOk contentHash memory) (he : Encoded e) :
    Caches contentHash memory (keyHash contentHash memory e).1 ∧ Cached (keyHash contentHash memory e).1 e ∧
      (keyHash contentHash memory e).2 = keyHashValue (wordEnv contentHash memory.units) (keyValue e) := by
  obtain ⟨hs, hb⟩ := he.isString
  by_cases hk : e &&& kindMask = kindString
  · obtain ⟨hc, hv, hh⟩ := stringHash_spec hm (keyValue e)
    have hs' : valueIsString (keyValue e) = true := by simp [hs, hk]
    rw [keyHash, if_pos hk]
    dsimp only
    refine ⟨hc, fun _ => hv, ?_⟩
    rw [hh, keyHashValue, if_pos hs', wordEnv]
  · have hs' : valueIsString (keyValue e) = false := by simp [hs, hk]
    rw [keyHash, if_neg hk]
    exact ⟨Caches.refl _ _, fun h => absurd h hk, (keyHashValue_of_bits _ hs' hb).symm⟩

/-! ## Equality -/

theorem Encoded.ext (h : Encoded e) (h' : Encoded e') (hv : keyValue e = keyValue e') : e = e' := by
  have hround := encodeKey_decodeKey h
  rw [← keyFromValue_keyValue h, hv, keyFromValue_keyValue h', encodeKey_decodeKey h', some.injEq] at hround
  exact hround.symm

theorem Encoded.eq_of_wordKey (h : Encoded e) (h' : Encoded e')
    (hs : e &&& kindMask ≠ kindString ∨ e' &&& kindMask ≠ kindString) (hk : wordKey units e = wordKey units e') :
    e = e' := by
  cases h with
  | index n hn =>
    cases h' with
    | index m hm =>
      rw [wordKey_index, wordKey_index, TableKey.index.injEq] at hk
      rw [BitVec.eq_of_toNat_eq hk]
    | string p => rw [wordKey_index, wordKey_string] at hk; cases hk
    | symbol p => rw [wordKey_index, wordKey_symbol] at hk; cases hk
  | string p =>
    cases h' with
    | index m hm => rw [wordKey_index, wordKey_string] at hk; cases hk
    | string q => rw [kind_string, kind_string] at hs; rcases hs with hs | hs <;> exact absurd rfl hs
    | symbol q => rw [wordKey_string, wordKey_symbol] at hk; cases hk
  | symbol p =>
    cases h' with
    | index m hm => rw [wordKey_index, wordKey_symbol] at hk; cases hk
    | string q => rw [wordKey_symbol, wordKey_string] at hk; cases hk
    | symbol q =>
      rw [wordKey_symbol, wordKey_symbol, TableKey.symbol.injEq] at hk
      refine Encoded.ext (.symbol p) (.symbol q) ?_
      rw [keyValue_symbol, keyValue_symbol, hk]

theorem wordKey_string_iff (hs : e &&& kindMask = kindString) (hs' : e' &&& kindMask = kindString) :
    wordKey units e = wordKey units e' ↔ units (keyValue e) = units (keyValue e') := by
  rw [wordKey, wordKey, hs, hs', if_neg (by decide), if_pos rfl, if_neg (by decide), if_pos rfl, TableKey.string.injEq]

theorem den_keyValue_iff (h : Encoded e) (h' : Encoded e') :
    (wordEnv contentHash units).den (keyValue e) = (wordEnv contentHash units).den (keyValue e') ↔
      wordKey units e = wordKey units e' := by
  obtain ⟨hs, hb⟩ := h.isString
  obtain ⟨hs', hb'⟩ := h'.isString
  by_cases hboth : e &&& kindMask = kindString ∧ e' &&& kindMask = kindString
  · rw [wordKey_string_iff hboth.1 hboth.2, KeyEnv.den, KeyEnv.den, hs, hs']
    simp [hboth, wordEnv]
  have hone : e &&& kindMask ≠ kindString ∨ e' &&& kindMask ≠ kindString := by
    by_contra hno
    push Not at hno
    exact hboth hno
  constructor
  · intro hd
    have hv : keyValue e = keyValue e' := by
      rcases hone with hone | hone
      · exact (den_eq_bits_iff _ (by simp [hs, hone]) hb).1 hd
      · exact ((den_eq_bits_iff _ (by simp [hs', hone]) hb').1 hd.symm).symm
    rw [h.ext h' hv]
  · intro hk
    rw [h.eq_of_wordKey h' hone hk]

theorem keyEquals_iff {entry : MalTableEntry} (hw : Encoded (entry.key &&& identityMask)) (he : Encoded e)
    {hashed : Bool} (hm : MemoryOk contentHash memory)
    (hcached : hashed = true → Cached memory entry.key ∧ Cached memory e) :
    keyEquals memory entry e hashed = true ↔ wordKey memory.units entry.key = wordKey memory.units e := by
  rw [← wordKey_identity memory.units entry.key, keyEquals]
  by_cases heq : entry.key &&& identityMask = e
  · rw [if_pos heq, heq]
    exact iff_of_true rfl rfl
  rw [if_neg heq]
  by_cases hone : entry.key &&& identityMask &&& kindMask ≠ kindString ∨ e &&& kindMask ≠ kindString
  · rw [if_pos hone]
    exact iff_of_false (by simp) fun hk => heq (hw.eq_of_wordKey he hone hk)
  rw [if_neg hone]
  push Not at hone
  rw [wordKey_string_iff hone.1 hone.2]
  split_ifs with hh
  · -- different hashes were computed from different contents
    refine iff_of_false (by simp) fun hu => hh.2 ?_
    obtain ⟨hl, hr⟩ := hcached hh.1
    rw [hm _ ((cached_identity.2 hl) hone.1), hm _ (hr hone.2), hu]
  · exact beq_iff_eq

/-! ## Fields that leave the identity alone -/

theorem fingerprint_and_hashMask (hash : BitVec 64) : hashFingerprint hash &&& hashMask = hashFingerprint hash := by
  rw [hashFingerprint, BitVec.shiftLeft_and_distrib, and_and_eq_self (by decide)]

theorem Encoded.and_eq_zero (h : Encoded e) (hm : identityMask &&& m = 0#64) : e &&& m = 0#64 := by
  rw [← h.and_identityMask, and_and_eq_zero hm]

end Maligator.Table
