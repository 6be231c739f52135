/-
UTF-16 code units, the scalars they spell, and strings as the segments their leaves give.

A string is read through `mal_string_iterator_next`, which yields the leaves in order, each one byte per unit (Latin-1) or
two (UTF-16), and never an empty one (`mal_string_iterator_push` drops empty parts). `Segmentation` is such a sequence; its
`flat` units are what the string denotes. `scalars` is the reading of a unit sequence as Unicode scalars with a lone
surrogate replaced by U+FFFD, each with the number of units it takes.
-/
import Mathlib.Data.List.TakeWhile
import Mathlib.Data.Nat.Bitwise
import Mathlib.Tactic.Ring

namespace Maligator.Text

def stringMaxCodeUnits : ℕ := 2 ^ 31 - 1

/-! ## utf16.h -/

def isLeadSurrogate (unit : UInt16) : Bool := 0xD800 ≤ unit.toNat && unit.toNat ≤ 0xDBFF

def isTrailSurrogate (unit : UInt16) : Bool := 0xDC00 ≤ unit.toNat && unit.toNat ≤ 0xDFFF

def isSurrogate (unit : UInt16) : Bool := 0xD800 ≤ unit.toNat && unit.toNat ≤ 0xDFFF

def isPair (lead trail : UInt16) : Bool := isLeadSurrogate lead && isTrailSurrogate trail

def composePair (lead trail : UInt16) : ℕ := 0x10000 + ((lead.toNat - 0xD800) <<< 10) + (trail.toNat - 0xDC00)

def emitPair (scalar : ℕ) : List UInt16 :=
  let adjusted := scalar - 0x10000
  [UInt16.ofNat (0xD800 + (adjusted >>> 10)), UInt16.ofNat (0xDC00 + (adjusted &&& 0x3FF))]

/-- the width of the code point at the front: a lone surrogate stays one unit -/
def codePointWidth : List UInt16 → ℕ
  | first :: second :: _ => if isPair first second then 2 else 1
  | _ => 1

/-- whether every unit fits Latin-1: the units are combined before the one comparison -/
def unitsFitLatin1 (units : List UInt16) : Bool := units.foldl (fun aggregate unit => aggregate ||| unit.toNat) 0 ≤ 0xFF

/-- the scalar at the front of nonempty units; false, with width one, at a lone surrogate -/
def utf16ReadScalar (units : List UInt16) : Bool × ℕ × ℕ :=
  let first := units.headD 0
  let width := codePointWidth units
  if width = 2 then (true, composePair first (units.tail.headD 0), width)
  else (!isSurrogate first, first.toNat, width)

variable {lead trail : UInt16} {first : UInt16}

theorem composePair_eq (h : isPair lead trail = true) :
    composePair lead trail = 0x10000 + (lead.toNat - 0xD800) * 0x400 + (trail.toNat - 0xDC00) ∧
      0xD800 ≤ lead.toNat ∧ lead.toNat ≤ 0xDBFF ∧ 0xDC00 ≤ trail.toNat ∧ trail.toNat ≤ 0xDFFF := by
  simp only [isPair, isLeadSurrogate, isTrailSurrogate, Bool.and_eq_true, decide_eq_true_eq] at h
  have hshift : (lead.toNat - 0xD800) <<< 10 = (lead.toNat - 0xD800) * 0x400 := by
    rw [Nat.shiftLeft_eq]
  refine ⟨?_, h.1.1, h.1.2, h.2.1, h.2.2⟩
  unfold composePair
  rw [hshift]

theorem emitPair_eq (scalar : ℕ) : emitPair scalar =
    [UInt16.ofNat (0xD800 + (scalar - 0x10000) / 0x400), UInt16.ofNat (0xDC00 + (scalar - 0x10000) % 0x400)] := by
  have hmask : (scalar - 0x10000) &&& 0x3FF = (scalar - 0x10000) % 0x400 := Nat.and_two_pow_sub_one_eq_mod _ 10
  simp only [emitPair, hmask, Nat.shiftRight_eq_div_pow]

theorem emitPair_composePair (h : isPair lead trail = true) : emitPair (composePair lead trail) = [lead, trail] := by
  obtain ⟨heq, h1, h2, h3, h4⟩ := composePair_eq h
  have hl : 0xD800 + (composePair lead trail - 0x10000) / 0x400 = lead.toNat := by omega
  have ht : 0xDC00 + (composePair lead trail - 0x10000) % 0x400 = trail.toNat := by omega
  rw [emitPair_eq, hl, ht, UInt16.ofNat_toNat, UInt16.ofNat_toNat]

theorem composePair_range (h : isPair lead trail = true) :
    0x10000 ≤ composePair lead trail ∧ composePair lead trail ≤ 0x10FFFF := by
  obtain ⟨heq, h1, h2, h3, h4⟩ := composePair_eq h
  omega

theorem isSurrogate_iff (unit : UInt16) : isSurrogate unit = (isLeadSurrogate unit || isTrailSurrogate unit) := by
  rw [Bool.eq_iff_iff]
  simp only [isSurrogate, isLeadSurrogate, isTrailSurrogate, Bool.and_eq_true, Bool.or_eq_true, decide_eq_true_eq]
  omega

theorem unitsFitLatin1_iff (units : List UInt16) : unitsFitLatin1 units = true ↔ ∀ u ∈ units, u.toNat ≤ 0xFF := by
  have hfold : ∀ (units : List UInt16) (a : ℕ), units.foldl (fun aggregate unit => aggregate ||| unit.toNat) a < 2 ^ 8 ↔
      a < 2 ^ 8 ∧ ∀ u ∈ units, u.toNat < 2 ^ 8 := by
    intro units
    induction units with
    | nil => simp
    | cons unit units ih =>
      intro a
      have hor : a ||| unit.toNat < 2 ^ 8 ↔ a < 2 ^ 8 ∧ unit.toNat < 2 ^ 8 :=
        ⟨fun h => ⟨lt_of_le_of_lt Nat.left_le_or h, lt_of_le_of_lt Nat.right_le_or h⟩, fun h => Nat.or_lt_two_pow h.1 h.2⟩
      rw [List.foldl_cons, ih, hor, and_assoc, List.forall_mem_cons]
  have h := hfold units 0
  rw [unitsFitLatin1, decide_eq_true_eq, ← Nat.lt_succ_iff, show (0xFF : ℕ).succ = 2 ^ 8 from rfl, h]
  exact ⟨fun h u hu => Nat.le_of_lt_succ (h.2 u hu), fun h => ⟨by omega, fun u hu => Nat.lt_succ_of_le (h u hu)⟩⟩

/-! ## Segments -/

/-- one leaf's units: a byte each, or two -/
inductive Segment where
  | latin1 (units : List UInt8)
  | utf16 (units : List UInt16)
  deriving DecidableEq, Repr

def Segment.units : Segment → List UInt16
  | .latin1 units => units.map UInt8.toUInt16
  | .utf16 units => units

def Segment.length (segment : Segment) : ℕ := segment.units.length

def Segment.codeUnitAt (segment : Segment) (index : ℕ) : UInt16 := segment.units.getD index 0

def Segment.drop (n : ℕ) : Segment → Segment
  | .latin1 units => .latin1 (units.drop n)
  | .utf16 units => .utf16 (units.drop n)

def Segment.take (n : ℕ) : Segment → Segment
  | .latin1 units => .latin1 (units.take n)
  | .utf16 units => .utf16 (units.take n)

def flatUnits (segments : List Segment) : List UInt16 := segments.flatMap Segment.units

/-- the leaves of a string, in order -/
structure Segmentation where
  segments : List Segment
  nonempty : ∀ segment ∈ segments, segment.units ≠ []

def Segmentation.flat (s : Segmentation) : List UInt16 := flatUnits s.segments

@[simp] theorem flatUnits_nil : flatUnits [] = [] := rfl

@[simp] theorem flatUnits_cons (segment : Segment) (segments : List Segment) :
    flatUnits (segment :: segments) = segment.units ++ flatUnits segments := List.flatMap_cons

@[simp] theorem Segment.units_drop (n : ℕ) (segment : Segment) : (segment.drop n).units = segment.units.drop n := by
  cases segment with
  | latin1 units => exact List.map_drop
  | utf16 units => rfl

@[simp] theorem Segment.units_take (n : ℕ) (segment : Segment) : (segment.take n).units = segment.units.take n := by
  cases segment with
  | latin1 units => exact List.map_take
  | utf16 units => rfl

theorem Segment.length_latin1 (units : List UInt8) : (Segment.latin1 units).length = units.length := List.length_map _

/-! ## Scalars -/

/-- a unit that is not half of a pair: a surrogate becomes U+FFFD -/
def replaceLone (unit : UInt16) : ℕ := if isSurrogate unit then 0xFFFD else unit.toNat

/-- what a unit sequence spells: each scalar with its number of units -/
def scalars : List UInt16 → List (ℕ × ℕ)
  | [] => []
  | [first] => [(replaceLone first, 1)]
  | first :: second :: rest =>
    if isPair first second then (composePair first second, 2) :: scalars rest
    else (replaceLone first, 1) :: scalars (second :: rest)

theorem scalars_pair (h : isPair lead trail = true) (rest : List UInt16) :
    scalars (lead :: trail :: rest) = (composePair lead trail, 2) :: scalars rest := by
  rw [scalars, if_pos h]

theorem scalars_cons {rest : List UInt16} (h : ∀ second ∈ rest.head?, isPair first second = false) :
    scalars (first :: rest) = (replaceLone first, 1) :: scalars rest := by
  cases rest with
  | nil => rfl
  | cons second rest => rw [scalars, h second rfl, if_neg Bool.false_ne_true]

theorem scalars_of_not_lead (h : isLeadSurrogate first = false) (rest : List UInt16) :
    scalars (first :: rest) = (replaceLone first, 1) :: scalars rest :=
  scalars_cons fun _ _ => by rw [isPair, h, Bool.false_and]

theorem scalars_read (first : UInt16) (rest : List UInt16) : scalars (first :: rest) =
      let (ok, scalar, width) := utf16ReadScalar (first :: rest)
      ((if ok then scalar else 0xFFFD), width) :: scalars ((first :: rest).drop width) := by
  cases rest with
  | nil => cases h : isSurrogate first <;> simp [utf16ReadScalar, codePointWidth, scalars, replaceLone, h]
  | cons second rest =>
    by_cases hp : isPair first second = true
    · simp [scalars_pair hp, utf16ReadScalar, codePointWidth, hp]
    · rw [scalars_cons (by simpa using hp)]
      cases h : isSurrogate first <;> simp [utf16ReadScalar, codePointWidth, replaceLone, h, hp]

def scalarUnits (scalar : ℕ) : List UInt16 := if scalar ≤ 0xFFFF then [UInt16.ofNat scalar] else emitPair scalar

end Maligator.Text
