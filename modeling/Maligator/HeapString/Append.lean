/-
Appending and concatenating several parts.

Repeated `s += piece` keeps one append buffer: the longest prefix of a buffer extends it in place and the result is a longer
prefix; an older prefix cannot extend it, so a branch becomes a rope. A template's parts are copied into one string, or
shared as a rope when they are long.

`appendChecked_spec`, `newPartsChecked_spec`: the result denotes the concatenation of the arguments, or the length limit is
exceeded and nothing changed.
-/
import Maligator.HeapString.Join

namespace Maligator.HeapString

open Text List

/-- **The outcome of an operation**: every value keeps its units and the new one denotes `new` -/
structure Creates (h : StringHeap) (new : List UInt16) (r : StringHeap × ℕ) : Prop where
  keeps : Keeps h r.1
  value : IsValue r.1 r.2
  units : units r.1 r.2 = new

theorem Makes.creates {h : StringHeap} {new : List UInt16} {r : StringHeap × ℕ} (hok : HeapOk h) (hm : Makes h new r) :
    Creates h new r := ⟨hm.ext.keeps hok hm.ok hm.weighted, hm.value, hm.units⟩

/-! ## Append buffers -/

def appendPieceMax : ℕ := 256

def appendMinCapacity : ℕ := 128

section

variable (h : StringHeap)

def copyTo (latin1 : Bool) (a : ℕ) : Segment :=
  if latin1 then .latin1 (copyNarrowContents h a) else .utf16 (copyRangeTo h a 0 (h.length a))

def appendSegment : Segment → Segment → Segment
  | .latin1 front, .latin1 back => .latin1 (front ++ back)
  | front, back => .utf16 (front.units ++ back.units)

/-- mal_string_new_append_buffer, with the units copied into it -/
def newAppendBuffer (payload : Segment) (capacity : ℕ) : StringHeap × ℕ :=
  h.alloc (initFlat (.builder payload capacity) payload.units.length)

def appendBuffer (a : ℕ) : Option (ℕ × Segment × ℕ) :=
  match (h.get a).storage with
  | .dependent _ parent 0 =>
    match (h.get parent).storage with
    | .builder payload capacity => if h.length parent = h.length a then some (parent, payload, capacity) else none
    | _ => none
  | _ => none

def appendCapacity (length : ℕ) : ℕ := min (max appendMinCapacity (length * 2)) stringMaxCodeUnits

/-- the end of mal_string_try_append: the tail is written in place and the result is a prefix -/
def extendBuffer (buffer : ℕ) (payload : Segment) (capacity right length : ℕ) : StringHeap × ℕ :=
  let extended := appendSegment payload (copyTo h (isLatin1 payload) right)
  newDependentResolved (h.set buffer { h.get buffer with length := length, storage := .builder extended capacity }) buffer 0 length

def growBuffer (payload : Segment) (right length : ℕ) : StringHeap × ℕ :=
  let (h', grown) := newAppendBuffer h payload (appendCapacity length)
  extendBuffer h' grown payload (appendCapacity length) right length

def tryAppend (left right length : ℕ) : Option (StringHeap × ℕ) :=
  match appendBuffer h left with
  | some (buffer, payload, capacity) =>
    if isLatin1 payload && !(h.get right).latin1 then none
    else if length > capacity then some (growBuffer h payload right length)
    else some (extendBuffer h buffer payload capacity right length)
  | none =>
    -- only a rope that an earlier append produced starts a buffer
    if !h.isCons left || h.length right > appendPieceMax then none
    else some (growBuffer h (copyTo h ((h.get left).latin1 && (h.get right).latin1) left) right length)

def appendChecked (left right : ℕ) : Except StringFailure (StringHeap × ℕ) :=
  let length := h.length left + h.length right
  if length > stringMaxCodeUnits then .error .lengthLimit
  else if length > inlineLatin1CodeUnits ∧ h.length left ≠ 0 ∧ h.length right ≠ 0 then
    match tryAppend h left right length with
    | some r => .ok r
    | none => newConsChecked h left right
  else newConsChecked h left right

/-! ## Parts -/

def joinParts (h : StringHeap) (result : ℕ) : List ℕ → Except StringFailure (StringHeap × ℕ)
  | [] => .ok (h, result)
  | part :: parts =>
    if h.length part = 0 then joinParts h result parts
    else
      match newConsChecked h result part with
      | .ok (h', result) => joinParts h' result parts
      | .error _ => .error .abort

def copyFlatPartLatin1 (a : ℕ) : List UInt8 :=
  if h.length a = 0 then [] else narrowSegment (leafSegment h a)

def isFlatLatin1 (a : ℕ) : Bool := (h.get a).latin1 && (h.flat? a).isSome

def copyParts (flatLatin1 latin1 : Bool) (parts : List ℕ) : Segment :=
  if flatLatin1 then .latin1 (parts.flatMap (copyFlatPartLatin1 h))
  else if latin1 then .latin1 (parts.flatMap (copyNarrowContents h))
  else .utf16 (parts.flatMap fun a => copyRangeTo h a 0 (h.length a))

def newPartsChecked (parts : List ℕ) : Except StringFailure (StringHeap × ℕ) :=
  match parts with
  | [] => .error .abort
  | first :: _ =>
    let length := (parts.map h.length).sum
    if length > stringMaxCodeUnits then .error .lengthLimit
    else
      match parts.filter (h.length · ≠ 0) with
      | [] => .ok (h, first)
      | [part] => .ok (h, part)
      | part :: rest =>
        if length ≥ 65536 then joinParts h part rest
        else
          let flatLatin1 := parts.all (isFlatLatin1 h)
          let latin1 := flatLatin1 || parts.all fun a => rangeIsLatin1 h a 0 (h.length a)
          if length ≤ (if latin1 then inlineLatin1CodeUnits else inlineCodeUnits) then
            .ok (newFlat h .inline (copyParts h flatLatin1 latin1 parts))
          else
            match copyParts h flatLatin1 latin1 parts with
            | .latin1 bytes => .ok (newLatin1 h bytes)
            | .utf16 units => .ok (newUtf16Owned h units)

end

section Lemmas

variable {h : StringHeap}

variable {a buffer left : ℕ}

theorem units_copyTo (hok : HeapOk h) (ha : a < h.size) {latin1 : Bool} (hn : latin1 = true → (h.get a).latin1 = true) :
    (copyTo h latin1 a).units = units h a := by
  cases latin1 with
  | true => exact copyNarrowContents_eq hok ha ((hok.cell a ha).narrow (hn rfl))
  | false =>
    change copyRangeTo h a 0 (h.length a) = _
    rw [copyRangeTo_eq hok ha (by omega), slice_all (length_units hok a ha)]

theorem isLatin1_copyTo (h : StringHeap) (latin1 : Bool) (a : ℕ) : isLatin1 (copyTo h latin1 a) = latin1 := by
  cases latin1 <;> rfl

theorem units_appendSegment (front back : Segment) : (appendSegment front back).units = front.units ++ back.units := by
  cases front with
  | utf16 units => rfl
  | latin1 bytes =>
    cases back with
    | utf16 units => rfl
    | latin1 bytes' => exact map_append

variable {payload : Segment} {parts : List ℕ}

variable {capacity right length : ℕ}

theorem newAppendBuffer_spec (hok : HeapOk h)
    (hcap : payload.units.length ≤ capacity) (hfits : payload.units.length ≤ stringMaxCodeUnits) :
    HeapOk (newAppendBuffer h payload capacity).1 ∧ Extends h (newAppendBuffer h payload capacity).1 ∧
      (newAppendBuffer h payload capacity).2 < (newAppendBuffer h payload capacity).1.size ∧
      ((newAppendBuffer h payload capacity).1.get (newAppendBuffer h payload capacity).2).storage = .builder payload capacity := by
  have hget := get_alloc h (initFlat (.builder payload capacity) payload.units.length)
  have hlen : (newAppendBuffer h payload capacity).1.length h.size = payload.units.length := by
    rw [newAppendBuffer, StringHeap.length, hget, initFlat]
  have hunits : units (newAppendBuffer h payload capacity).1 h.size = payload.units :=
    units_of_leaf (by rw [newAppendBuffer, StringHeap.leaf?, hget, initFlat])
  refine ⟨alloc_ok hok ⟨hlen.le.trans hfits, ?_, ?_, ?_⟩, extends_alloc h _, ?_, congrArg MalString.storage hget⟩
  · unfold ShapeOk
    rw [hget]
    exact ⟨hlen.symm, hlen.le.trans hcap, rfl⟩
  · rw [hget]
    change isLatin1 payload = true → ∀ u ∈ units (newAppendBuffer h payload capacity).1 h.size, _
    rw [hunits]
    exact narrow_of_payload
  · rw [hget]
    simp [initFlat]
  · change h.size < (h.alloc _).1.size
    rw [size_alloc]
    omega

/-- **A buffer extended in place**: values that read a prefix of it keep their units -/
theorem extendBuffer_creates (hok : HeapOk h) (hb : buffer < h.size)
    (hs : (h.get buffer).storage = .builder payload capacity) (hr : right < h.size)
    (hlatin1 : isLatin1 payload = true → (h.get right).latin1 = true)
    (hlen : payload.units.length + h.length right = length) (hcap : length ≤ capacity) (hfits : length ≤ stringMaxCodeUnits) :
    Creates h (payload.units ++ units h right) (extendBuffer h buffer payload capacity right length) := by
  have hshape := (hok.cell buffer hb).shape
  unfold ShapeOk at hshape
  rw [hs] at hshape
  have hbuilder : h.isBuilder buffer = true := by rw [StringHeap.isBuilder, hs]
  have hright := length_units hok right hr
  rw [extendBuffer]
  generalize hext : appendSegment payload (copyTo h (isLatin1 payload) right) = extended
  have hunits : extended.units = payload.units ++ units h right := by
    rw [← hext, units_appendSegment, units_copyTo hok hr hlatin1]
  have hulen : extended.units.length = length := by rw [hunits, length_append, hright, hlen]
  generalize hcell : ({ h.get buffer with length := length, storage := .builder extended capacity } : MalString) = cell
  have hbecomes : Becomes h buffer cell extended := by
    subst hcell
    refine ⟨.builder capacity hbuilder, hulen.symm, hulen.le.trans hfits, ?_, ?_, ?_, ?_⟩
    · rw [hunits, units_of_leaf (by rw [StringHeap.leaf?, hs])]
      exact prefix_append _ _
    · intro hno
      rw [hbuilder] at hno
      cases hno
    · intro hv
      rw [hshape.2.2] at hv
      cases hv
    · intro p c hpc
      cases hpc
      exact ⟨hcap, hshape.2.2⟩
  have hkeep := set_leaf hok hb hbecomes
  have hm := newDependentResolved_makes hkeep.ok (by rw [size_set]; exact hb) (hbecomes.leaf hb)
    (show 0 + length ≤ extended.units.length by omega)
  rw [slice_all hulen, hunits] at hm
  exact ⟨hkeep.trans (hm.ext.keeps hkeep.ok hm.ok hm.weighted), hm.value, hm.units⟩

theorem le_appendCapacity (h : length ≤ stringMaxCodeUnits) : length ≤ appendCapacity length := by
  rw [appendCapacity]
  omega

theorem growBuffer_creates (hok : HeapOk h) (hr : right < h.size)
    (hlatin1 : isLatin1 payload = true → (h.get right).latin1 = true)
    (hlen : payload.units.length + h.length right = length) (hfits : length ≤ stringMaxCodeUnits) :
    Creates h (payload.units ++ units h right) (growBuffer h payload right length) := by
  have hcap := le_appendCapacity hfits
  obtain ⟨hok', hx, hsize, hs⟩ := newAppendBuffer_spec hok (show payload.units.length ≤ appendCapacity length by omega)
    (show payload.units.length ≤ stringMaxCodeUnits by omega)
  have hc := extendBuffer_creates hok' hsize hs (lt_of_lt_of_le hr hx.size) (by rwa [hx.get right hr])
    (by rw [hx.length hr, hlen]) hcap hfits
  rw [hx.units hok hr] at hc
  exact ⟨(hx.keeps hok hok' (weighted_alloc hok fun _ _ _ hs => by cases hs)).trans hc.keeps, hc.value, hc.units⟩

theorem appendBuffer_spec (hok : HeapOk h) (hl : left < h.size)
    (hbuf : appendBuffer h left = some (buffer, payload, capacity)) :
    buffer < h.size ∧ (h.get buffer).storage = .builder payload capacity ∧ payload.units = units h left := by
  rw [appendBuffer] at hbuf
  split at hbuf
  · rename_i latin1 parent hs
    have hp := hok.dependent hl hs
    split at hbuf
    · rename_i payload'' capacity' hsp
      split_ifs at hbuf with hlen
      cases hbuf
      have hpl : h.leaf? buffer = some payload := by rw [StringHeap.leaf?, hsp]
      refine ⟨by omega, hsp, ?_⟩
      have hlength := length_units hok buffer (by omega)
      rw [units_dependent hok hl hs, units_of_leaf hpl, drop_zero, take_of_length_le]
      rw [← units_of_leaf hpl, hlength, hlen]
    · cases hbuf
  · cases hbuf

theorem tryAppend_creates (hok : HeapOk h) {r : StringHeap × ℕ} (hl : left < h.size) (hr : right < h.size)
    (hlen : h.length left + h.length right = length) (hfits : length ≤ stringMaxCodeUnits)
    (htry : tryAppend h left right length = some r) : Creates h (units h left ++ units h right) r := by
  have hleft := length_units hok left hl
  rw [tryAppend] at htry
  cases hbuf : appendBuffer h left with
  | some b =>
    obtain ⟨hb, hs, hu⟩ := appendBuffer_spec hok hl hbuf
    rw [hbuf] at htry
    dsimp only at htry
    split_ifs at htry with hwide hgrow
    · cases htry
      rw [← hu]
      exact growBuffer_creates hok hr (by simpa using hwide) (by rw [hu, hleft, hlen]) hfits
    cases htry
    rw [← hu]
    exact extendBuffer_creates hok hb hs hr (by simpa using hwide) (by rw [hu, hleft, hlen]) (by omega) hfits
  | none =>
    rw [hbuf] at htry
    split_ifs at htry
    cases htry
    have hu : (copyTo h ((h.get left).latin1 && (h.get right).latin1) left).units = units h left :=
      units_copyTo hok hl fun hb => (Bool.and_eq_true _ _ ▸ hb : _ ∧ _).1
    rw [← hu]
    refine growBuffer_creates hok hr ?_ (by rw [hu, hleft, hlen]) hfits
    rw [isLatin1_copyTo]
    exact fun hb => (Bool.and_eq_true _ _ ▸ hb : _ ∧ _).2

theorem appendChecked_spec (hok : HeapOk h) (hl : IsValue h left) (hr : IsValue h right)
    (hlpos : 0 < h.length left) (hrpos : 0 < h.length right) :
    if h.length left + h.length right ≤ stringMaxCodeUnits then
      ∃ r, appendChecked h left right = .ok r ∧ Creates h (units h left ++ units h right) r
    else appendChecked h left right = .error .lengthLimit := by
  have hcons := newConsChecked_spec hok hl hr hlpos hrpos
  rw [appendChecked]
  by_cases hfits : h.length left + h.length right ≤ stringMaxCodeUnits
  · rw [if_pos hfits] at hcons ⊢
    obtain ⟨r, hres, hc⟩ := hcons
    have hrope : ∃ r, newConsChecked h left right = .ok r ∧ Creates h (units h left ++ units h right) r :=
      ⟨r, hres, hc.toMakes.creates hok⟩
    rw [if_neg (not_lt.2 hfits)]
    split_ifs with hlong
    · cases htry : tryAppend h left right (h.length left + h.length right) with
      | none => exact hrope
      | some r => exact ⟨r, rfl, tryAppend_creates hok hl.1 hr.1 rfl hfits htry⟩
    · exact hrope
  · rw [if_neg hfits, if_pos (not_le.1 hfits)]

/-! ## Parts -/

theorem joinParts_creates : ∀ (parts : List ℕ) {h : StringHeap} (_ : HeapOk h) {result : ℕ} (_ : IsValue h result)
    (_ : 0 < h.length result) (_ : ∀ a ∈ parts, IsValue h a) (_ : h.length result + (parts.map h.length).sum ≤ stringMaxCodeUnits),
    ∃ r, joinParts h result parts = .ok r ∧ Creates h (units h result ++ parts.flatMap (units h)) r
  | [], h, hok, result, hres, _, _, _ => ⟨_, rfl, Keeps.refl hok, hres, by simp⟩
  | part :: parts, h, hok, result, hres, hpos, hparts, hsum => by
    obtain ⟨hpart, hrest⟩ := forall_mem_cons.1 hparts
    rw [map_cons, sum_cons] at hsum
    rw [joinParts]
    split_ifs with hzero
    · have hnil : units h part = [] := length_eq_zero_iff.1 ((length_units hok part hpart.1).trans hzero)
      rw [flatMap_cons, hnil, nil_append]
      exact joinParts_creates parts hok hres hpos hrest (by omega)
    have hcons := newConsChecked_spec hok hres hpart hpos (by omega)
    rw [if_pos (by omega)] at hcons
    obtain ⟨⟨h', next⟩, hnext, hc⟩ := hcons
    rw [hnext]
    dsimp only
    have hlen : h'.length next = h.length result + h.length part := by
      rw [← length_units hc.ok next hc.value.1, hc.units, length_append, length_units hok _ hres.1,
        length_units hok _ hpart.1]
    have hmap : parts.map h'.length = parts.map h.length :=
      map_congr_left fun a ha => hc.ext.length (hrest a ha).1
    have hflat : parts.flatMap (units h') = parts.flatMap (units h) := by
      exact congrArg List.flatten (map_congr_left fun a ha => hc.ext.units hok (hrest a ha).1)
    obtain ⟨r, hrun, hcr⟩ := joinParts_creates parts hc.ok hc.value (show 0 < h'.length next by omega)
      (fun a ha => hc.ext.value (hrest a ha)) (show h'.length next + (parts.map h'.length).sum ≤ _ by rw [hmap]; omega)
    refine ⟨r, hrun, (hc.ext.keeps hok hc.ok hc.weighted).trans hcr.keeps, hcr.value, ?_⟩
    rw [hcr.units, hflat, hc.units, flatMap_cons, append_assoc]

theorem copyFlatPartLatin1_eq (hok : HeapOk h) (ha : a < h.size) (hflat : isFlatLatin1 h a = true) :
    (copyFlatPartLatin1 h a).map UInt8.toUInt16 = units h a := by
  rw [isFlatLatin1, Bool.and_eq_true, Option.isSome_iff_exists] at hflat
  obtain ⟨hlatin1, payload, hpayload⟩ := hflat
  have hcons := isCons_of_leaf (leaf_of_flat hpayload)
  have hseg := units_leafSegment hok ha hcons
  rw [copyFlatPartLatin1]
  split_ifs with hzero
  · exact (length_eq_zero_iff.1 ((length_units hok a ha).trans hzero)).symm
  · rw [units_narrowSegment (by rw [hseg]; exact (hok.cell a ha).narrow hlatin1), hseg]

theorem flatMap_parts {β : Type} {copy : ℕ → List β} {wide : β → UInt16}
    (hcopy : ∀ a ∈ parts, (copy a).map wide = units h a) : (parts.flatMap copy).map wide = parts.flatMap (units h) := by
  rw [map_flatMap]
  exact congrArg List.flatten (map_congr_left hcopy)

theorem units_copyParts (hok : HeapOk h) (hparts : ∀ a ∈ parts, IsValue h a) {flatLatin1 latin1 : Bool}
    (hflat : flatLatin1 = true → parts.all (isFlatLatin1 h) = true)
    (hlatin1 : flatLatin1 = false → latin1 = true → (parts.all fun a => rangeIsLatin1 h a 0 (h.length a)) = true) :
    (copyParts h flatLatin1 latin1 parts).units = parts.flatMap (units h) := by
  rw [copyParts]
  split_ifs with h1 h2
  · exact flatMap_parts fun a ha => copyFlatPartLatin1_eq hok (hparts a ha).1 (all_eq_true.1 (hflat h1) a ha)
  · refine flatMap_parts fun a ha => copyNarrowContents_eq hok (hparts a ha).1 ?_
    have hr := all_eq_true.1 (hlatin1 (by simpa using h1) h2) a ha
    have hn := rangeIsLatin1_narrow hok (hparts a ha).1 (by omega) hr
    rwa [slice_all (length_units hok a (hparts a ha).1)] at hn
  have hwide : ((parts.flatMap fun a => copyRangeTo h a 0 (h.length a)).map id) = parts.flatMap (units h) :=
    flatMap_parts fun a ha => by
      rw [map_id, copyRangeTo_eq hok (hparts a ha).1 (by omega), slice_all (length_units hok a (hparts a ha).1)]
  rwa [map_id] at hwide

theorem flatMap_filter_nonempty (hok : HeapOk h) (hparts : ∀ a ∈ parts, IsValue h a) :
    (parts.filter (h.length · ≠ 0)).flatMap (units h) = parts.flatMap (units h) := by
  induction parts with
  | nil => rfl
  | cons part parts ih =>
    obtain ⟨hpart, hrest⟩ := forall_mem_cons.1 hparts
    by_cases hzero : h.length part = 0
    · rw [filter_cons_of_neg (by simpa using hzero), flatMap_cons, ih hrest,
        length_eq_zero_iff.1 ((length_units hok part hpart.1).trans hzero), nil_append]
    · rw [filter_cons_of_pos (by simpa using hzero), flatMap_cons, flatMap_cons, ih hrest]

theorem sum_filter_nonempty (h : StringHeap) (parts : List ℕ) :
    ((parts.filter (h.length · ≠ 0)).map h.length).sum = (parts.map h.length).sum := by
  induction parts with
  | nil => rfl
  | cons part parts ih =>
    by_cases hzero : h.length part = 0
    · rw [filter_cons_of_neg (by simpa using hzero), ih, map_cons, sum_cons, hzero, Nat.zero_add]
    · rw [filter_cons_of_pos (by simpa using hzero), map_cons, map_cons, sum_cons, sum_cons, ih]

theorem length_flatMap_units (hok : HeapOk h) (hparts : ∀ a ∈ parts, IsValue h a) :
    (parts.flatMap (units h)).length = (parts.map h.length).sum := by
  rw [length_flatMap]
  exact congrArg List.sum (map_congr_left fun a ha => length_units hok a (hparts a ha).1)

theorem newPartsChecked_spec (hok : HeapOk h) (hne : parts ≠ []) (hparts : ∀ a ∈ parts, IsValue h a) :
    if (parts.map h.length).sum ≤ stringMaxCodeUnits then
      ∃ r, newPartsChecked h parts = .ok r ∧ Creates h (parts.flatMap (units h)) r
    else newPartsChecked h parts = .error .lengthLimit := by
  cases parts with
  | nil => exact absurd rfl hne
  | cons first others =>
    have hsum := sum_filter_nonempty h (first :: others)
    have hflat := flatMap_filter_nonempty hok hparts
    have hlen := length_flatMap_units hok hparts
    rw [newPartsChecked]
    generalize hall : first :: others = parts at hparts hsum hflat hlen ⊢
    have hfirst : IsValue h first := hparts first (hall ▸ mem_cons_self ..)
    by_cases hfits : (parts.map h.length).sum ≤ stringMaxCodeUnits
    swap
    · rw [if_neg hfits, if_pos (not_le.1 hfits)]
    rw [if_pos hfits, if_neg (not_lt.2 hfits), ← hflat]
    have hmem : ∀ a ∈ parts.filter (h.length · ≠ 0), IsValue h a ∧ 0 < h.length a := by
      intro a ha
      obtain ⟨hp, hz⟩ := mem_filter.1 ha
      exact ⟨hparts a hp, Nat.pos_of_ne_zero (by simpa using hz)⟩
    rw [← hsum] at hfits
    rw [← hflat, ← hsum] at hlen
    generalize hnonempty : parts.filter (h.length · ≠ 0) = nonempty at hfits hlen hmem hflat ⊢
    match nonempty with
    | [] =>
      have hzero := filter_eq_nil_iff.1 hnonempty first (hall ▸ mem_cons_self ..)
      refine ⟨_, rfl, Keeps.refl hok, hfirst, length_eq_zero_iff.1 ?_⟩
      rw [length_units hok first hfirst.1]
      simpa using hzero
    | [part] => exact ⟨_, rfl, Keeps.refl hok, (hmem part (mem_singleton_self _)).1, by simp⟩
    | part :: next :: rest =>
      obtain ⟨⟨hpart, hpos⟩, hrest⟩ := forall_mem_cons.1 hmem
      dsimp only
      by_cases hlong : (parts.map h.length).sum ≥ 65536
      · rw [if_pos hlong]
        exact joinParts_creates _ hok hpart hpos (fun a ha => (hrest a ha).1) hfits
      rw [if_neg hlong]
      generalize hfl : parts.all (isFlatLatin1 h) = flatLatin1
      generalize hla : (flatLatin1 || parts.all fun a => rangeIsLatin1 h a 0 (h.length a)) = latin1
      have hcopy : (copyParts h flatLatin1 latin1 parts).units = (part :: next :: rest).flatMap (units h) := by
        rw [hflat]
        refine units_copyParts hok hparts (fun hf => hfl.trans hf) fun hf hl => ?_
        rwa [← hla, hf] at hl
      generalize copyParts h flatLatin1 latin1 parts = payload at hcopy ⊢
      have hplen : payload.units.length ≤ stringMaxCodeUnits := by rw [hcopy, hlen]; exact hfits
      rw [← hcopy]
      by_cases hinline : (parts.map h.length).sum ≤ if latin1 = true then inlineLatin1CodeUnits else inlineCodeUnits
      · rw [if_pos hinline]
        exact ⟨_, rfl, (newFlat_makes hok .inline payload hplen).creates hok⟩
      rw [if_neg hinline]
      cases payload with
      | latin1 bytes =>
        exact ⟨_, rfl, (newLatin1_makes hok bytes (by rwa [Segment.units, length_map] at hplen)).creates hok⟩
      | utf16 units => exact ⟨_, rfl, (newUtf16Owned_makes hok hplen).creates hok⟩

end Lemmas

end Maligator.HeapString
