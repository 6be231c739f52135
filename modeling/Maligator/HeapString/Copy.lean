/-
Constructors of heap strings: copies, adopted buffers, the tiny string cache and slices.

Short texts are looked up in a small cache of leaves before a cell is allocated. A slice copies short ranges and ranges over
several leaves, reuses a string that is exactly the range, and otherwise keeps a dependent view of one flat parent unless
that would retain too much.

`newCopy_makes`, `newLatin1_makes`, `newUtf16Owned_makes`, `newOwned_makes`, `newSlice_makes`: each result denotes exactly
what it was made from, and no cell that was there has changed. The aborts on texts past the engine's limit are hypotheses.
-/
import Maligator.HeapString.Segments

namespace Maligator.HeapString

open Text List

section

variable (h : StringHeap)

def compact (units : List UInt16) : Segment :=
  if unitsFitLatin1 units then .latin1 (units.map UInt16.toUInt8) else .utf16 units

/-- mal_string_tiny_cache_matches, and the comparison of mal_string_tiny_cache_get_latin1 -/
def tinyCacheMatches (cached : ℕ) (units : List UInt16) : Bool :=
  match h.leaf? cached with
  | some payload => h.length cached = units.length && payload.units = units
  | none => false

/-- a new leaf with its hash, remembered in its slot -/
def tinyCacheCreate (payload : Segment) (hash : UInt64) : StringHeap × ℕ :=
  let (h', a) := h.alloc { initFlat (.flat .inline payload) payload.units.length with hash := hash, hashValid := true }
  ({ h' with tinyCache := fun slot => if slot = h.tinyIndex payload.units then some a else h'.tinyCache slot }, a)

def tinyCacheGet (payload : Segment) (hash : UInt64) : StringHeap × ℕ :=
  match h.tinyCache (h.tinyIndex payload.units) with
  | some cached => if tinyCacheMatches h cached payload.units then (h, cached) else tinyCacheCreate h payload hash
  | none => tinyCacheCreate h payload hash

def tinyCacheGetOrCreate (units : List UInt16) : StringHeap × ℕ := tinyCacheGet h (compact units) (hashCodeUnits units)

/-- mal_string_tiny_cache_get_latin1: the hash is the folded loop over the bytes -/
def tinyCacheGetLatin1 (bytes : List UInt8) : StringHeap × ℕ :=
  tinyCacheGet h (.latin1 bytes) (hashSegment 0xcbf29ce484222325 (.latin1 bytes) &&& hashMask)

def newFlat (kind : FlatStorage) (payload : Segment) : StringHeap × ℕ :=
  h.alloc (initFlat (.flat kind payload) payload.units.length)

def newCopy (units : List UInt16) : StringHeap × ℕ :=
  if units.length ≤ inlineCodeUnits then tinyCacheGetOrCreate h units
  else if units.length ≤ (if unitsFitLatin1 units then inlineLatin1CodeUnits else inlineCodeUnits) then
    newFlat h .inline (compact units)
  else newFlat h .owned (compact units)

/-- mal_string_new_latin1: copied, adopted and ASCII bytes end up alike -/
def newLatin1 (bytes : List UInt8) : StringHeap × ℕ :=
  if bytes.length ≤ inlineCodeUnits then tinyCacheGetLatin1 h bytes
  else if bytes.length ≤ inlineLatin1CodeUnits then newFlat h .inline (.latin1 bytes)
  else newFlat h .owned (.latin1 bytes)

def newInlineLatin1 (bytes : List UInt8) : StringHeap × ℕ := newFlat h .inline (.latin1 bytes)

def newUtf16Owned (units : List UInt16) : StringHeap × ℕ :=
  if units.length ≤ inlineCodeUnits then newCopy h units else newFlat h .owned (.utf16 units)

def newOwned (units : List UInt16) : StringHeap × ℕ :=
  if units.length ≤ inlineCodeUnits then tinyCacheGetOrCreate h units
  else if unitsFitLatin1 units then newLatin1 h (units.map UInt16.toUInt8)
  else newUtf16Owned h units

def newExternal (units : List UInt16) : StringHeap × ℕ := newFlat h .external (.utf16 units)

/-! ## Slices -/

def copyRange (parent offset length : ℕ) : StringHeap × ℕ :=
  match tryGetSegment h parent offset length with
  | some (.latin1 bytes) => newLatin1 h bytes
  | some (.utf16 units) => newCopy h units
  | none =>
    if length ≤ inlineLatin1CodeUnits then newCopy h (copyRangeTo h parent offset length)
    else if rangeIsLatin1 h parent offset length then newLatin1 h ((iterate h parent offset length).flatMap narrowSegment)
    else newUtf16Owned h (copyRangeTo h parent offset length)

def newDependentResolved (parent offset length : ℕ) : StringHeap × ℕ :=
  h.alloc (initFlat (.dependent (h.get parent).latin1 parent offset) length)

/-- the loop of mal_string_new_slice that finds the retained parent; each round goes to an older cell -/
def resolveSlice (h : StringHeap) (length : ℕ) : ℕ → ℕ → ℕ → ℕ × ℕ
  | 0, parent, offset => (parent, offset)
  | fuel + 1, parent, offset =>
    match (h.get parent).storage with
    | .dependent _ grandparent sliceOffset => resolveSlice h length fuel grandparent (offset + sliceOffset)
    | .cons _ left right =>
      if offset ≥ h.length left then resolveSlice h length fuel right (offset - h.length left)
      else if length ≤ h.length left - offset then resolveSlice h length fuel left offset
      else (parent, offset)
    | _ => (parent, offset)

def sliceSmallParentCodeUnits : ℕ := 4096

def sliceMaxRetainedRatio : ℕ := 8

/-- a view of the parent does not retain out of proportion -/
def useDependent (parent length : ℕ) : Bool :=
  let retained := (h.sidecarUnits parent).getD (h.length parent)
  let minimum := (retained + sliceMaxRetainedRatio - 1) / sliceMaxRetainedRatio
  (h.get parent).storage matches .flat .external _ || retained ≤ sliceSmallParentCodeUnits || length ≥ minimum

def newSlice (parent offset length : ℕ) : StringHeap × ℕ :=
  if length = 0 then newLatin1 h []
  else if offset = 0 && length = h.length parent then (h, parent)
  else if length ≤ inlineLatin1CodeUnits then copyRange h parent offset length
  else
    let (parent, offset) := resolveSlice h length (parent + 1) parent offset
    if offset = 0 && length = h.length parent && !h.isBuilder parent then (h, parent)
    else if h.isCons parent then copyRange h parent offset length
    else if useDependent h parent length then newDependentResolved h parent offset length
    else copyRange h parent offset length

end

/-! ## Copies denote what was copied -/

theorem hashUnit_latin1 (hash : UInt64) (byte : UInt8) : hashUnit hash byte.toUInt16 = (hash ^^^ byte.toUInt64) * 0x366000002e329 := by
  have hlow : byte.toUInt16.toUInt8 = byte := by
    rw [← UInt8.toNat_inj, UInt16.toNat_toUInt8, UInt8.toNat_toUInt16, Nat.mod_eq_of_lt byte.toNat_lt]
  have hhigh : (byte.toUInt16 >>> 8).toUInt8.toUInt64 = 0 := by
    rw [← UInt64.toNat_inj, UInt8.toNat_toUInt64, UInt16.toNat_toUInt8, UInt16.toNat_shiftRight, UInt8.toNat_toUInt16,
      Nat.shiftRight_eq_div_pow]
    have := byte.toNat_lt
    have h8 : (2 : ℕ) ^ (UInt16.toNat 8 % 16) = 256 := rfl
    rw [h8]
    have : byte.toNat / 256 = 0 := by omega
    rw [this]
    rfl
  have hprime : fnvPrime * fnvPrime = 0x366000002e329 := by decide
  rw [hashUnit, hlow, hhigh, UInt64.xor_zero, UInt64.mul_assoc, hprime]

theorem hashSegment_eq (hash : UInt64) (segment : Segment) : hashSegment hash segment = segment.units.foldl hashUnit hash := by
  cases segment with
  | utf16 units => rfl
  | latin1 bytes =>
    rw [hashSegment, Segment.units, List.foldl_map]
    simp only [hashUnit_latin1]

section Makes

variable {h : StringHeap}

theorem units_compact (units : List UInt16) : (compact units).units = units := by
  rw [compact]
  split_ifs with hfit
  · exact map_narrow ((unitsFitLatin1_iff units).1 hfit)
  · rfl

section

variable (hok : HeapOk h)
include hok

theorem newFlat_makes (kind : FlatStorage) (payload : Segment)
    (hfits : payload.units.length ≤ stringMaxCodeUnits) : MakesLeaf h payload.units (newFlat h kind payload) :=
  alloc_flat hok rfl rfl hfits nofun

theorem tiny_ok {a : ℕ} (ha : IsValue h a) (slot : ℕ) :
    HeapOk { h with tinyCache := fun s => if s = slot then some a else h.tinyCache s } := by
  have hx : Extends h { h with tinyCache := fun s => if s = slot then some a else h.tinyCache s } := ⟨le_rfl, fun _ _ => rfl⟩
  refine ⟨fun b hb => hx.cellOk hok hb, fun s b hs => ?_⟩
  dsimp only at hs
  split_ifs at hs with heq
  · cases hs
    exact ha
  · exact hok.tiny s b hs

theorem tinyCacheCreate_makes {payload : Segment} {hash : UInt64} (hfits : payload.units.length ≤ stringMaxCodeUnits)
    (hhash : hash = hashCodeUnits payload.units) : MakesLeaf h payload.units (tinyCacheCreate h payload hash) := by
  have hm : MakesLeaf h payload.units
      (h.alloc { initFlat (.flat .inline payload) payload.units.length with hash := hash, hashValid := true }) :=
    alloc_flat hok rfl rfl hfits fun _ => hhash
  have hx : Extends (h.alloc { initFlat (.flat .inline payload) payload.units.length with
      hash := hash, hashValid := true }).1 (tinyCacheCreate h payload hash).1 := ⟨le_rfl, fun _ _ => rfl⟩
  exact ⟨⟨tiny_ok hm.ok hm.value _, hm.ext.trans hx, hx.value hm.value, (hx.units hm.ok hm.value.1).trans hm.units,
    hm.weighted⟩, (hx.isCons hm.value.1).trans hm.leaf⟩

theorem tinyCacheGet_makes (payload : Segment) {hash : UInt64} (hfits : payload.units.length ≤ stringMaxCodeUnits)
    (hhash : hash = hashCodeUnits payload.units) : MakesLeaf h payload.units (tinyCacheGet h payload hash) := by
  rw [tinyCacheGet]
  cases hc : h.tinyCache (h.tinyIndex payload.units) with
  | none => exact tinyCacheCreate_makes hok hfits hhash
  | some cached =>
    dsimp only
    split_ifs with hmatch
    · rw [tinyCacheMatches] at hmatch
      cases hleaf : h.leaf? cached with
      | none => rw [hleaf] at hmatch; cases hmatch
      | some found =>
        rw [hleaf, Bool.and_eq_true, decide_eq_true_eq, decide_eq_true_eq] at hmatch
        exact ⟨⟨hok, Extends.refl h, hok.tiny _ cached hc, (units_of_leaf hleaf).trans hmatch.2, id⟩, isCons_of_leaf hleaf⟩
    · exact tinyCacheCreate_makes hok hfits hhash

variable {new : List UInt16} {parent offset length : ℕ}

section

variable (hfits : new.length ≤ stringMaxCodeUnits)
include hfits

theorem tinyCacheGetOrCreate_makes : MakesLeaf h new (tinyCacheGetOrCreate h new) := by
  have hm := tinyCacheGet_makes hok (compact new) (by rwa [units_compact]) (congrArg hashCodeUnits (units_compact new).symm)
  rwa [units_compact] at hm

theorem newCopy_makes : MakesLeaf h new (newCopy h new) := by
  have hcompact := units_compact new
  have hfits' : (compact new).units.length ≤ stringMaxCodeUnits := by rwa [hcompact]
  rw [newCopy]
  split_ifs
  · exact tinyCacheGetOrCreate_makes hok hfits
  all_goals
    have hm := fun kind => newFlat_makes hok kind _ hfits'
    rw [hcompact] at hm
    exact hm _

omit hfits in
theorem newLatin1_makes (bytes : List UInt8) (hfits : bytes.length ≤ stringMaxCodeUnits) :
    MakesLeaf h (bytes.map UInt8.toUInt16) (newLatin1 h bytes) := by
  have hfits' : (Segment.latin1 bytes).units.length ≤ stringMaxCodeUnits := by rwa [Segment.units, length_map]
  rw [newLatin1]
  split_ifs
  · exact tinyCacheGet_makes hok _ hfits' (congrArg (· &&& hashMask) (hashSegment_eq _ (.latin1 bytes)))
  · exact newFlat_makes hok _ _ hfits'
  · exact newFlat_makes hok _ _ hfits'

theorem newUtf16Owned_makes : MakesLeaf h new (newUtf16Owned h new) := by
  rw [newUtf16Owned]
  split_ifs
  · exact newCopy_makes hok hfits
  · exact newFlat_makes hok _ (.utf16 new) hfits

theorem newOwned_makes : MakesLeaf h new (newOwned h new) := by
  rw [newOwned]
  split_ifs with hshort hfit
  · exact tinyCacheGetOrCreate_makes hok hfits
  · have hm := newLatin1_makes hok (new.map UInt16.toUInt8) (by rwa [length_map])
    rwa [map_narrow ((unitsFitLatin1_iff new).1 hfit)] at hm
  · exact newUtf16Owned_makes hok hfits

/-! ## Slices denote slices -/

end

theorem slice_fits {a : ℕ} (ha : a < h.size) (offset length : ℕ) :
    (slice (units h a) offset length).length ≤ stringMaxCodeUnits := by
  have hlen := length_units hok a ha
  have hfit := (hok.cell a ha).fits
  rw [slice, length_take, length_drop]
  omega

theorem copyRange_makes (hp : parent < h.size)
    (hle : offset + length ≤ h.length parent) : MakesLeaf h (slice (units h parent) offset length) (copyRange h parent offset length) := by
  have hfits := slice_fits hok hp offset length
  have hcopy := copyRangeTo_eq hok hp hle
  rw [copyRange]
  cases hs : tryGetSegment h parent offset length with
  | some segment =>
    have hseg := tryGetSegment_units hok hp hle hs
    rw [← hseg] at hfits ⊢
    cases segment with
    | latin1 bytes => exact newLatin1_makes hok bytes (by rwa [Segment.units, length_map] at hfits)
    | utf16 new => exact newCopy_makes hok hfits
  | none =>
    split_ifs with hshort hnarrow
    · rw [hcopy]
      exact newCopy_makes hok hfits
    · have hit := (iterate_units hok hp hle).1
      have hn := rangeIsLatin1_narrow hok hp hle hnarrow
      rw [← hit] at hn hfits ⊢
      have hmap := units_flatMap_narrow hn
      have hm := newLatin1_makes hok ((iterate h parent offset length).flatMap narrowSegment)
        (by rwa [← hmap, length_map] at hfits)
      rwa [hmap] at hm
    · rw [hcopy]
      exact newUtf16Owned_makes hok hfits

theorem newDependentResolved_makes {payload : Segment} (hp : parent < h.size)
    (hleaf : h.leaf? parent = some payload) (hle : offset + length ≤ payload.units.length) :
    MakesLeaf h (slice payload.units offset length) (newDependentResolved h parent offset length) := by
  have hget := get_alloc h (initFlat (.dependent (h.get parent).latin1 parent offset) length)
  have hx := extends_alloc h (initFlat (.dependent (h.get parent).latin1 parent offset) length)
  have hunits : units (newDependentResolved h parent offset length).1 h.size = slice payload.units offset length := by
    rw [newDependentResolved, units, unitsFrom, hget]
    change ((unitsFrom _ h.size parent).drop offset).take length = _
    rw [unitsFrom_of_leaf ((hx.leaf hp).trans hleaf) (by omega), slice]
  have hplen := length_units hok parent hp
  have hpfit := (hok.cell parent hp).fits
  rw [units_of_leaf hleaf] at hplen
  have hcell : CellOk (newDependentResolved h parent offset length).1 h.size := by
    refine ⟨?_, ?_, ?_, ?_⟩
    · rw [newDependentResolved, StringHeap.length, hget]
      change length ≤ _
      omega
    · unfold ShapeOk
      rw [newDependentResolved, hget]
      refine ⟨hp, payload, (hx.leaf hp).trans hleaf, ?_⟩
      rw [StringHeap.length, hget]
      exact hle
    · rw [hunits, newDependentResolved, hget]
      intro hlatin1 u hu
      have hn := (hok.cell parent hp).narrow hlatin1
      rw [units_of_leaf hleaf] at hn
      exact hn u (mem_of_mem_drop (mem_of_mem_take hu))
    · rw [newDependentResolved, hget]
      simp [initFlat]
  refine ⟨⟨alloc_ok hok hcell, hx, ⟨?_, ?_⟩, hunits, weighted_alloc hok fun _ _ _ hs => by cases hs⟩, ?_⟩
  · change h.size < StringHeap.size _
    rw [newDependentResolved, size_alloc]
    omega
  · change StringHeap.isBuilder _ h.size = false
    rw [newDependentResolved, StringHeap.isBuilder, hget]
    rfl
  · change StringHeap.isCons _ h.size = false
    rw [newDependentResolved, StringHeap.isCons, hget]
    rfl

theorem resolveSlice_spec : ∀ (fuel parent offset : ℕ), parent < fuel →
    parent < h.size → offset + length ≤ h.length parent → let r := resolveSlice h length fuel parent offset
      r.1 < h.size ∧ r.2 + length ≤ h.length r.1 ∧
        slice (units h r.1) r.2 length = slice (units h parent) offset length ∧
        (h.isCons r.1 = false → ∃ payload, h.leaf? r.1 = some payload) ∧ (h.isCons parent = false → h.isCons r.1 = false) := by
  intro fuel
  induction fuel with
  | zero => exact nofun
  | succ fuel ih =>
    intro parent offset hfuel hp hle
    rw [resolveSlice]
    cases hs : (h.get parent).storage with
    | flat kind payload | builder payload capacity =>
      exact ⟨hp, hle, rfl, fun _ => ⟨payload, by rw [StringHeap.leaf?, hs]⟩, id⟩
    | dependent latin1 grandparent sliceOffset =>
      obtain ⟨hg, payload, hleaf, hfit⟩ := hok.dependent hp hs
      have hlen := length_units hok grandparent (by omega)
      rw [units_of_leaf hleaf] at hlen
      obtain ⟨h1, h2, h3, h4, h5⟩ := ih grandparent (offset + sliceOffset) (by omega) (by omega) (by omega)
      refine ⟨h1, h2, h3.trans ?_, h4, fun _ => h5 ?_⟩
      · rw [units_dependent hok hp hs, ← slice, slice_slice hle]
      · exact isCons_of_leaf hleaf
    | cons latin1 left right =>
      have hshape := hok.cons hp hs
      have hleft := length_units hok left (by omega)
      have hunits := units_cons hok hp hs
      have hcons : h.isCons parent = true := by rw [StringHeap.isCons, hs]
      have hno : h.isCons parent = false → ∀ P : Prop, P := fun hf => by rw [hcons] at hf; cases hf
      dsimp only
      split_ifs with h1 h2
      · obtain ⟨h1', h2', h3, h4, -⟩ := ih right (offset - h.length left) (by omega) (by omega) (by omega)
        refine ⟨h1', h2', h3.trans ?_, h4, fun hf => hno hf _⟩
        rw [hunits, slice_append_right (by omega), hleft]
      · obtain ⟨h1', h2', h3, h4, -⟩ := ih left offset (by omega) (by omega) (by omega)
        refine ⟨h1', h2', h3.trans ?_, h4, fun hf => hno hf _⟩
        rw [hunits, slice_append_left (by omega)]
      · exact ⟨hp, hle, rfl, fun hf => hno hf _, id⟩

theorem newSlice_makes (hp : IsValue h parent) (hle : offset + length ≤ h.length parent) :
    Makes h (slice (units h parent) offset length) (newSlice h parent offset length) ∧
      (h.isCons parent = false → (newSlice h parent offset length).1.isCons (newSlice h parent offset length).2 = false) := by
  have hlen := length_units hok parent hp.1
  have hleaf : ∀ {r}, MakesLeaf h (slice (units h parent) offset length) r →
      Makes h (slice (units h parent) offset length) r ∧ (h.isCons parent = false → r.1.isCons r.2 = false) :=
    fun hm => ⟨hm.toMakes, fun _ => hm.leaf⟩
  rw [newSlice]
  split_ifs with hzero hfull hshort
  · rw [hzero] at hleaf ⊢
    exact hleaf (newLatin1_makes hok [] (Nat.zero_le _))
  · rw [Bool.and_eq_true, decide_eq_true_eq, decide_eq_true_eq] at hfull
    rw [hfull.1, hfull.2, slice_all hlen]
    exact ⟨⟨hok, Extends.refl h, hp, rfl, id⟩, id⟩
  · exact hleaf (copyRange_makes hok hp.1 hle)
  obtain ⟨h1, h2, h3, h4, h5⟩ := resolveSlice_spec hok (parent + 1) parent offset (Nat.lt_succ_self _) hp.1 hle
  dsimp only
  generalize resolveSlice h length (parent + 1) parent offset = r at *
  rw [← h3] at hleaf ⊢
  split_ifs with hreuse hcons hdep
  · simp only [Bool.and_eq_true, decide_eq_true_eq, Bool.not_eq_true'] at hreuse
    obtain ⟨⟨hoff, hlength⟩, hbuilder⟩ := hreuse
    rw [hoff, hlength, slice_all (length_units hok r.1 h1)]
    exact ⟨⟨hok, Extends.refl h, ⟨h1, hbuilder⟩, rfl, id⟩, h5⟩
  · exact hleaf (copyRange_makes hok h1 h2)
  · obtain ⟨payload, hpayload⟩ := h4 (Bool.eq_false_iff.2 hcons)
    have hl := length_units hok r.1 h1
    rw [units_of_leaf hpayload] at hl hleaf ⊢
    exact hleaf (newDependentResolved_makes hok h1 hpayload (by omega))
  · exact hleaf (copyRange_makes hok h1 h2)

end

end Makes

end Maligator.HeapString
