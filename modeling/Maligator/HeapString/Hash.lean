/-
String hashes: FNV over the bytes of the UTF-16 units, kept modulo 2^57.

A Latin-1 unit has a zero high byte, so its two multiplications fold into one by the square of the prime. The hash state
modulo 2^57 determines the next one modulo 2^57, so a cached hash of a prefix can be continued with the units that follow.

`hashContinue_eq`: walking any representation is hashing its units. `hashSlow_spec`: the hash of a string is that of its
units, whether it was cached, continued from a cached left part or computed; filling the cache in changes no string.
-/
import Maligator.HeapString.Update

namespace Maligator.HeapString

open Text

/-! ## heap_string.c -/

section

variable (h : StringHeap) (a : ℕ)

def leafSegment : Segment :=
  match (h.get a).storage with
  | .flat _ payload => payload
  | .builder payload _ => payload
  | .dependent _ parent offset => (((h.leaf? parent).getD (.latin1 [])).drop offset).take (h.length a)
  | .cons .. => .latin1 []

/-- mal_string_hash_continue; the loop over right parts and the recursion over left ones both go to older cells -/
def hashContinueFrom (h : StringHeap) : ℕ → UInt64 → ℕ → UInt64
  | 0, hash, _ => hash
  | fuel + 1, hash, a =>
    match (h.get a).storage with
    | .cons _ left right => hashContinueFrom h fuel (hashContinueFrom h fuel hash left) right
    | _ => if h.length a = 0 then hash else hashSegment hash (leafSegment h a)

def hashContinue (hash : UInt64) (a : ℕ) : UInt64 := hashContinueFrom h (a + 1) hash a

def setHash (hash : UInt64) : StringHeap :=
  h.set a { h.get a with hash := hash &&& hashMask, hashValid := true }

/-- where mal_string_hash_slow starts: behind the left part when that has its hash -/
def hashStart : UInt64 × ℕ :=
  match (h.get a).storage with
  | .cons _ left right => if (h.get left).hashValid then ((h.get left).hash, right) else (0xcbf29ce484222325, a)
  | _ => (0xcbf29ce484222325, a)

def hashSlow : StringHeap × UInt64 :=
  if (h.get a).hashValid then (h, (h.get a).hash)
  else
    let (hash, suffix) := hashStart h a
    let h' := setHash h a (hashContinue h hash suffix)
    (h', (h'.get a).hash)

end

/-! ## Arithmetic of the hash -/

variable {x y : UInt64}

theorem toNat_and_mask (x : UInt64) : (x &&& hashMask).toNat = x.toNat % 2 ^ 57 := by
  exact Nat.and_two_pow_sub_one_eq_mod x.toNat 57

theorem and_mask_eq_iff (x y : UInt64) : x &&& hashMask = y &&& hashMask ↔ x.toNat % 2 ^ 57 = y.toNat % 2 ^ 57 := by
  rw [← UInt64.toNat_inj, toNat_and_mask, toNat_and_mask]

theorem mask_step (h : x &&& hashMask = y &&& hashMask) (b p : UInt64) :
    ((x ^^^ b) * p) &&& hashMask = ((y ^^^ b) * p) &&& hashMask := by
  rw [and_mask_eq_iff] at h ⊢
  have hmod : ∀ n : ℕ, n % 2 ^ 64 % 2 ^ 57 = n % 2 ^ 57 := fun n => Nat.mod_mod_of_dvd n (pow_dvd_pow 2 (by omega))
  rw [UInt64.toNat_mul, UInt64.toNat_mul, hmod, hmod, UInt64.toNat_xor, UInt64.toNat_xor, Nat.mul_mod,
    Nat.xor_mod_two_pow, h, ← Nat.xor_mod_two_pow, ← Nat.mul_mod]

theorem mask_hashUnit (h : x &&& hashMask = y &&& hashMask) (u : UInt16) :
    hashUnit x u &&& hashMask = hashUnit y u &&& hashMask := mask_step (mask_step h _ _) _ _

theorem mask_foldl (h : x &&& hashMask = y &&& hashMask) (units : List UInt16) :
    units.foldl hashUnit x &&& hashMask = units.foldl hashUnit y &&& hashMask := by
  induction units generalizing x y with
  | nil => exact h
  | cons u units ih => exact ih (mask_hashUnit h u)

theorem hashCodeUnits_append (front back : List UInt16) :
    hashCodeUnits (front ++ back) = back.foldl hashUnit (hashCodeUnits front) &&& hashMask := by
  rw [hashCodeUnits, List.foldl_append]
  refine mask_foldl ?_ back
  rw [hashCodeUnits, UInt64.and_assoc, UInt64.and_self]

/-! ## Walking a string -/

section Walk

variable {h : StringHeap}

theorem units_leafSegment (hok : HeapOk h) {a : ℕ} (ha : a < h.size) (hcons : h.isCons a = false) :
    (leafSegment h a).units = units h a := by
  unfold StringHeap.isCons at hcons
  unfold leafSegment
  cases hs : (h.get a).storage with
  | flat kind payload | builder payload capacity => exact (units_of_leaf (by rw [StringHeap.leaf?, hs])).symm
  | cons latin1 left right => rw [hs] at hcons; cases hcons
  | dependent latin1 parent offset =>
    obtain ⟨-, payload, hleaf, -⟩ := hok.dependent ha hs
    dsimp only
    rw [units_dependent hok ha hs, units_of_leaf hleaf, hleaf, Option.getD_some, Segment.units_take, Segment.units_drop]

theorem hashContinueFrom_eq (hok : HeapOk h) (fuel a : ℕ) (hash : UInt64) (ha : a < h.size) (hfuel : a < fuel) :
    hashContinueFrom h fuel hash a = (units h a).foldl hashUnit hash := by
  induction fuel generalizing a hash with
  | zero => cases hfuel
  | succ fuel ih =>
    have hleaf : h.isCons a = false →
        (if h.length a = 0 then hash else hashSegment hash (leafSegment h a)) = (units h a).foldl hashUnit hash := by
      intro hcons
      split_ifs with hzero
      · rw [← length_units hok a ha, List.length_eq_zero_iff] at hzero
        rw [hzero]
        rfl
      · rw [hashSegment_eq, units_leafSegment hok ha hcons]
    unfold StringHeap.isCons at hleaf
    rw [hashContinueFrom]
    cases hs : (h.get a).storage with
    | flat kind payload | builder payload capacity | dependent latin1 parent offset => exact hleaf (by rw [hs])
    | cons latin1 left right =>
      have hshape := hok.cons ha hs
      dsimp only
      rw [ih left hash (by omega) (by omega), ih right _ (by omega) (by omega), units_cons hok ha hs, List.foldl_append]

theorem hashContinue_eq (hok : HeapOk h) {a : ℕ} (ha : a < h.size) (hash : UInt64) :
    hashContinue h hash a = (units h a).foldl hashUnit hash := hashContinueFrom_eq hok _ a hash ha (Nat.lt_succ_self a)

theorem hashStart_spec (hok : HeapOk h) {a : ℕ} (ha : a < h.size) :
    hashContinue h (hashStart h a).1 (hashStart h a).2 &&& hashMask = hashCodeUnits (units h a) := by
  have hplain : hashContinue h 0xcbf29ce484222325 a &&& hashMask = hashCodeUnits (units h a) := by
    rw [hashContinue_eq hok ha, hashCodeUnits]
  unfold hashStart
  cases hs : (h.get a).storage with
  | flat kind payload | builder payload capacity | dependent latin1 parent offset => exact hplain
  | cons latin1 left right =>
    have hshape := hok.cons ha hs
    dsimp only
    split_ifs with hv
    · rw [hashContinue_eq hok (by omega : right < h.size), (hok.cell left (by omega)).hash hv, units_cons hok ha hs,
        hashCodeUnits_append]
    · exact hplain

theorem hashSlow_spec (hok : HeapOk h) {a : ℕ} (ha : IsValue h a) :
    (hashSlow h a).2 = hashCodeUnits (units h a) ∧ Keeps h (hashSlow h a).1 := by
  rw [hashSlow]
  split_ifs with hv
  · exact ⟨(hok.cell a ha.1).hash hv, Keeps.refl hok⟩
  have hstart := hashStart_spec hok ha.1
  dsimp only
  refine ⟨?_, set_hash hok ha hstart⟩
  rw [setHash, get_set_self ha.1]
  exact hstart

end Walk

end Maligator.HeapString
