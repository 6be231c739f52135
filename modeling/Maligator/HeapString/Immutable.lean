/-
Strings over whole runs.

`StringOp` are the operations of heap_string.h that make or reshape strings; `meaning` is what each of them stands for in
terms of unit sequences alone. Arguments are strings the program holds and ranges lie inside them: heap_string.c aborts
otherwise. A result longer than the limit is refused and leaves the heap as it was.

`stringRun_spec`: along every run each result denotes the meaning of its operation when it is made and ever after.
`stringRun_balanced`: along every run every rope keeps the weight bound, whatever is flattened, sliced or appended to.
-/
import Maligator.HeapString.Flatten

namespace Maligator.HeapString

open Text List

inductive StringOp where
  | copy (units : List UInt16)
  | latin1 (bytes : List UInt8)
  | inlineLatin1 (bytes : List UInt8)
  | utf16Owned (units : List UInt16)
  | owned (units : List UInt16)
  | external (units : List UInt16)
  | slice (parent offset length : ℕ)
  | cons (left right : ℕ)
  | append (left right : ℕ)
  | parts (strings : List ℕ)
  | flatten (string : ℕ)
  | codeUnits (string : ℕ)
  | rangeUtf16 (string start length : ℕ)
  | flatSegment (string : ℕ)
  | hash (string : ℕ)
  deriving DecidableEq, Repr

def reading {α : Type} (a : ℕ) : Option (StringHeap × α) → Except StringFailure (StringHeap × ℕ)
  | some r => .ok (r.1, a)
  | none => .error .abort

def stringStep (h : StringHeap) : StringOp → Except StringFailure (StringHeap × ℕ)
  | .copy units => .ok (newCopy h units)
  | .latin1 bytes => .ok (newLatin1 h bytes)
  | .inlineLatin1 bytes => .ok (newInlineLatin1 h bytes)
  | .utf16Owned units => .ok (newUtf16Owned h units)
  | .owned units => .ok (newOwned h units)
  | .external units => .ok (newExternal h units)
  | .slice parent offset length => .ok (newSlice h parent offset length)
  | .cons left right => newConsChecked h left right
  | .append left right => appendChecked h left right
  | .parts strings => newPartsChecked h strings
  | .flatten a => reading a (flatten h a)
  | .codeUnits a => reading a (codeUnits h a)
  | .rangeUtf16 a start length => reading a (rangeUtf16 h a start length)
  | .flatSegment a => reading a (flatSegmentResolved h a)
  | .hash a => .ok ((hashSlow h a).1, a)

def meaning (h : StringHeap) : StringOp → List UInt16
  | .copy units => units
  | .latin1 bytes => bytes.map UInt8.toUInt16
  | .inlineLatin1 bytes => bytes.map UInt8.toUInt16
  | .utf16Owned units => units
  | .owned units => units
  | .external units => units
  | .slice parent offset length => ((units h parent).drop offset).take length
  | .cons left right => units h left ++ units h right
  | .append left right => units h left ++ units h right
  | .parts strings => strings.flatMap (units h)
  | .flatten a => units h a
  | .codeUnits a => units h a
  | .rangeUtf16 a _ _ => units h a
  | .flatSegment a => units h a
  | .hash a => units h a

/-- arguments for which heap_string.c does not abort -/
def Legal (h : StringHeap) : StringOp → Prop
  | .copy units => units.length ≤ stringMaxCodeUnits
  | .latin1 bytes => bytes.length ≤ stringMaxCodeUnits
  | .inlineLatin1 bytes => bytes.length ≤ inlineLatin1CodeUnits
  | .utf16Owned units => units.length ≤ stringMaxCodeUnits
  | .owned units => units.length ≤ stringMaxCodeUnits
  | .external units => units.length ≤ stringMaxCodeUnits
  | .slice parent offset length => IsValue h parent ∧ offset + length ≤ h.length parent
  | .cons left right => IsValue h left ∧ IsValue h right ∧ 0 < h.length left ∧ 0 < h.length right
  | .append left right => IsValue h left ∧ IsValue h right ∧ 0 < h.length left ∧ 0 < h.length right
  | .parts strings => strings ≠ [] ∧ ∀ a ∈ strings, IsValue h a
  | .flatten a => IsValue h a
  | .codeUnits a => IsValue h a
  | .rangeUtf16 a start length => IsValue h a ∧ start + length ≤ h.length a
  | .flatSegment a => IsValue h a
  | .hash a => IsValue h a

instance (h : StringHeap) (a : ℕ) : Decidable (IsValue h a) := inferInstanceAs (Decidable (_ ∧ _))

instance (h : StringHeap) (op : StringOp) : Decidable (Legal h op) :=
  match op with
  | .copy units => inferInstanceAs (Decidable (units.length ≤ _))
  | .latin1 bytes => inferInstanceAs (Decidable (bytes.length ≤ _))
  | .inlineLatin1 bytes => inferInstanceAs (Decidable (bytes.length ≤ _))
  | .utf16Owned units => inferInstanceAs (Decidable (units.length ≤ _))
  | .owned units => inferInstanceAs (Decidable (units.length ≤ _))
  | .external units => inferInstanceAs (Decidable (units.length ≤ _))
  | .slice parent _ _ => inferInstanceAs (Decidable (IsValue h parent ∧ _))
  | .cons left right => inferInstanceAs (Decidable (IsValue h left ∧ IsValue h right ∧ _))
  | .append left right => inferInstanceAs (Decidable (IsValue h left ∧ IsValue h right ∧ _))
  | .parts strings => inferInstanceAs (Decidable (strings ≠ [] ∧ ∀ a ∈ strings, IsValue h a))
  | .flatten a => inferInstanceAs (Decidable (IsValue h a))
  | .codeUnits a => inferInstanceAs (Decidable (IsValue h a))
  | .rangeUtf16 a _ _ => inferInstanceAs (Decidable (IsValue h a ∧ _))
  | .flatSegment a => inferInstanceAs (Decidable (IsValue h a))
  | .hash a => inferInstanceAs (Decidable (IsValue h a))

def Outcome (h : StringHeap) (new : List UInt16) (outcome : Except StringFailure (StringHeap × ℕ)) : Prop :=
  if new.length ≤ stringMaxCodeUnits then ∃ r, outcome = .ok r ∧ Creates h new r else outcome = .error .lengthLimit

section Step

variable {h : StringHeap}

variable {new : List UInt16} {r : StringHeap × ℕ} {a : ℕ}

theorem outcome_of_creates (hlen : new.length ≤ stringMaxCodeUnits) (hc : Creates h new r) : Outcome h new (.ok r) := by
  rw [Outcome, if_pos hlen]
  exact ⟨r, rfl, hc⟩

theorem outcome_of_makes (hok : HeapOk h) (hlen : new.length ≤ stringMaxCodeUnits)
    (hm : Makes h new r) : Outcome h new (.ok r) := outcome_of_creates hlen (hm.creates hok)

theorem units_fit (hok : HeapOk h) (ha : IsValue h a) : (units h a).length ≤ stringMaxCodeUnits := by
  rw [length_units hok a ha.1]
  exact (hok.cell a ha.1).fits

theorem outcome_of_reading {α : Type} (hok : HeapOk h) (ha : IsValue h a) {result : Option (StringHeap × α)}
    {r : StringHeap × α} (hr : result = some r) (hk : Keeps h r.1) : Outcome h (units h a) (reading a result) := by
  rw [hr]
  exact outcome_of_creates (units_fit hok ha) ⟨hk, hk.value a ha, hk.units a ha⟩

theorem stringStep_spec (hok : HeapOk h) (op : StringOp) (hlegal : Legal h op) : Outcome h (meaning h op) (stringStep h op) := by
  cases op with
  | copy new => exact outcome_of_makes hok hlegal (newCopy_makes hok hlegal).toMakes
  | latin1 bytes =>
    exact outcome_of_makes hok (by rw [meaning, length_map]; exact hlegal) (newLatin1_makes hok bytes hlegal).toMakes
  | inlineLatin1 bytes =>
    have hshort : bytes.length ≤ stringMaxCodeUnits := le_trans hlegal (by decide)
    have hlen : (Segment.latin1 bytes).units.length ≤ stringMaxCodeUnits := by rwa [Segment.units, length_map]
    exact outcome_of_makes hok hlen (newFlat_makes hok .inline (.latin1 bytes) hlen).toMakes
  | utf16Owned new => exact outcome_of_makes hok hlegal (newUtf16Owned_makes hok hlegal).toMakes
  | owned new => exact outcome_of_makes hok hlegal (newOwned_makes hok hlegal).toMakes
  | external new => exact outcome_of_makes hok hlegal (newFlat_makes hok .external (.utf16 new) hlegal).toMakes
  | slice parent offset length =>
    exact outcome_of_makes hok (slice_fits hok hlegal.1.1 offset length) (newSlice_makes hok hlegal.1 hlegal.2).1
  | cons left right =>
    obtain ⟨hl, hr, hlpos, hrpos⟩ := hlegal
    have hspec := newConsChecked_spec hok hl hr hlpos hrpos
    rw [Outcome, meaning, length_append, length_units hok left hl.1, length_units hok right hr.1]
    split_ifs at hspec ⊢
    · obtain ⟨r, hres, hc⟩ := hspec
      exact ⟨r, hres, hc.toMakes.creates hok⟩
    · exact hspec
  | append left right =>
    obtain ⟨hl, hr, hlpos, hrpos⟩ := hlegal
    rw [Outcome, meaning, length_append, length_units hok left hl.1, length_units hok right hr.1]
    exact appendChecked_spec hok hl hr hlpos hrpos
  | parts strings =>
    rw [Outcome, meaning, length_flatMap_units hok hlegal.2]
    exact newPartsChecked_spec hok hlegal.1 hlegal.2
  | flatten a =>
    obtain ⟨r, hres, hk, -⟩ := flatten_spec hok hlegal.1
    exact outcome_of_reading hok hlegal hres hk
  | codeUnits a =>
    obtain ⟨r, hres, hk, -⟩ := codeUnits_spec hok hlegal.1
    exact outcome_of_reading hok hlegal hres hk
  | rangeUtf16 a start length =>
    obtain ⟨r, hres, hk, -⟩ := rangeUtf16_spec hok hlegal.1 hlegal.2
    exact outcome_of_reading hok hlegal.1 hres hk
  | flatSegment a =>
    obtain ⟨r, hres, hk, -⟩ := flatSegmentResolved_spec hok hlegal
    exact outcome_of_reading hok hlegal hres hk
  | hash a =>
    have hk := (hashSlow_spec hok hlegal).2
    exact outcome_of_creates (units_fit hok hlegal) ⟨hk, hk.value a hlegal, hk.units a hlegal⟩

end Step

/-! ## Runs -/

def stringNext (h : StringHeap) (op : StringOp) : StringHeap :=
  match stringStep h op with
  | .ok r => r.1
  | .error _ => h

def stringRun (h : StringHeap) (ops : List StringOp) : StringHeap := ops.foldl stringNext h

def LegalRun : StringHeap → List StringOp → Prop
  | _, [] => True
  | h, op :: ops => Legal h op ∧ LegalRun (stringNext h op) ops

instance decidableLegalRun : (h : StringHeap) → (ops : List StringOp) → Decidable (LegalRun h ops)
  | _, [] => .isTrue trivial
  | h, op :: ops =>
    have := decidableLegalRun (stringNext h op) ops
    inferInstanceAs (Decidable (Legal h op ∧ LegalRun (stringNext h op) ops))

theorem stringNext_keeps {h : StringHeap} (hok : HeapOk h) {op : StringOp} (hlegal : Legal h op) : Keeps h (stringNext h op) := by
  have hspec := stringStep_spec hok op hlegal
  rw [Outcome] at hspec
  rw [stringNext]
  split_ifs at hspec
  · obtain ⟨r, hres, hc⟩ := hspec
    rw [hres]
    exact hc.keeps
  · rw [hspec]
    exact Keeps.refl hok

theorem stringRun_keeps : ∀ (ops : List StringOp) {h : StringHeap}, HeapOk h → LegalRun h ops → Keeps h (stringRun h ops)
  | [], _, hok, _ => Keeps.refl hok
  | _ :: ops, _, hok, hlegal =>
    let hk := stringNext_keeps hok hlegal.1
    hk.trans (stringRun_keeps ops hk.ok hlegal.2)

theorem legalRun_append : ∀ (front : List StringOp) {h : StringHeap} {back : List StringOp}, LegalRun h (front ++ back) →
    LegalRun h front ∧ LegalRun (stringRun h front) back
  | [], _, _, hlegal => ⟨trivial, hlegal⟩
  | _ :: front, _, _, hlegal =>
    let hrest := legalRun_append front hlegal.2
    ⟨⟨hlegal.1, hrest.1⟩, hrest.2⟩

/-- **Every string of a run is balanced**, the pieces of rebuilt ropes included. -/
theorem stringRun_balanced (h : StringHeap) (hok : HeapOk h) (hbalanced : ∀ a, a < h.size → Balanced h a)
    (ops : List StringOp) (hlegal : LegalRun h ops) : ∀ a, a < (stringRun h ops).size → Balanced (stringRun h ops) a := by
  have hk := stringRun_keeps ops hok hlegal
  exact (weighted_iff hk.ok).1 (hk.weighted ((weighted_iff hok).2 hbalanced))

/-- **String contents are immutable and constructors are exact.** -/
theorem stringRun_spec (h : StringHeap) (hok : HeapOk h) (front : List StringOp) (op : StringOp) (back : List StringOp)
    (hlegal : LegalRun h (front ++ op :: back)) :
    let before := stringRun h front
    let final := stringRun h (front ++ op :: back)
    HeapOk final ∧ (∀ a, IsValue final a → (units final a).length = final.length a) ∧
    (∀ a, IsValue before a → IsValue final a ∧ units final a = units before a) ∧
    if (meaning before op).length ≤ stringMaxCodeUnits then
      ∃ r, stringStep before op = .ok r ∧ IsValue r.1 r.2 ∧ units r.1 r.2 = meaning before op ∧
        r.1.length r.2 = (meaning before op).length ∧ IsValue final r.2 ∧ units final r.2 = meaning before op
    else stringStep before op = .error .lengthLimit := by
  intro before final
  obtain ⟨hfront, hback⟩ := legalRun_append front hlegal
  have hbefore := stringRun_keeps front hok hfront
  have hfinal : Keeps before final := by
    have hk := stringRun_keeps (op :: back) hbefore.ok hback
    rwa [stringRun, stringRun, ← foldl_append] at hk
  refine ⟨hfinal.ok, fun a ha => length_units hfinal.ok a ha.1, fun a ha => ⟨hfinal.value a ha, hfinal.units a ha⟩, ?_⟩
  have hspec := stringStep_spec hbefore.ok op hback.1
  rw [Outcome] at hspec
  split_ifs at hspec ⊢
  · obtain ⟨r, hres, hc⟩ := hspec
    -- the rest of the run starts from the heap the operation left
    have hafter : Keeps r.1 final := by
      have hnext : stringNext before op = r.1 := by rw [stringNext, hres]
      have hrun := stringRun_keeps back (hnext ▸ hc.keeps.ok) hback.2
      have heq : (op :: back).foldl stringNext (front.foldl stringNext h) = final := foldl_append.symm
      rw [← hnext, ← heq]
      exact hrun
    refine ⟨r, hres, hc.value, hc.units, ?_, hafter.value _ hc.value, (hafter.units _ hc.value).trans hc.units⟩
    rw [← length_units hc.keeps.ok r.2 hc.value.1, hc.units]
  · exact hspec

/-- a leaf, a piece and their rope; the first append starts a buffer, the second extends it, flattening widens it -/
def appendRun : List StringOp × StringOp × List StringOp :=
  ([.latin1 (replicate 17 0x61), .inlineLatin1 [0x62, 0x63], .cons 0 1], .append 2 1, [.append 4 1, .flatten 5])

theorem stringRun_spec_append_buffer :
    let before := stringRun emptyHeap appendRun.1
    let final := stringRun emptyHeap (appendRun.1 ++ appendRun.2.1 :: appendRun.2.2)
    HeapOk final ∧ (∀ a, IsValue before a → IsValue final a ∧ units final a = units before a) ∧ IsValue final 4 ∧
      units final 4 = replicate 17 0x61 ++ [0x62, 0x63, 0x62, 0x63] := by
  intro before final
  obtain ⟨hok, -, hkept, hspec⟩ := stringRun_spec emptyHeap emptyHeap_ok appendRun.1 appendRun.2.1 appendRun.2.2 (by decide)
  have hmeaning : meaning before appendRun.2.1 = replicate 17 0x61 ++ [0x62, 0x63, 0x62, 0x63] := by decide
  have haddress : (stringStep before appendRun.2.1).toOption.map Prod.snd = some 4 := by decide
  rw [hmeaning, if_pos (by decide)] at hspec
  obtain ⟨r, hres, -, -, -, hvalue, hunits⟩ := hspec
  rw [hres] at haddress
  rw [Option.some.inj haddress] at hvalue hunits
  exact ⟨hok, hkept, hvalue, hunits⟩

end Maligator.HeapString
