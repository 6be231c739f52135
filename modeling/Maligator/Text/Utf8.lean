/-
UTF-8 encoding: the flat encoder, the segmented one, and the byte counter.

`mal_utf8_encode_into` walks flat units; `mal_string_utf8_process` walks the leaves of a string with a cursor, takes ASCII
runs of a Latin-1 leaf at once, drops the capacity checks when the whole string must fit, and joins a surrogate pair across
leaves; `mal_string_utf8_length` only counts, carrying a pending lead from leaf to leaf.

`utf8EncodeInto_eq`, `stringUtf8EncodeInto_eq`: both encoders write the bytes of the longest run of whole scalars that fits (`fit`).
`stringUtf8Length_eq`: the counter gives the number of bytes of all scalars.
-/
import Maligator.Lib.Swar
import Maligator.Text.Units

namespace Maligator.Text

open Swar List

/-! ## Scalars as bytes -/

def utf8ScalarWidth (scalar : ℕ) : ℕ :=
  if scalar < 0x80 then 1 else if scalar < 0x800 then 2 else if scalar < 0x10000 then 3 else 4

def utf8WriteScalar (scalar width : ℕ) : List UInt8 :=
  if width = 1 then [UInt8.ofNat scalar]
  else if width = 2 then [UInt8.ofNat (0xC0 ||| (scalar >>> 6)), UInt8.ofNat (0x80 ||| (scalar &&& 0x3F))]
  else if width = 3 then
    [UInt8.ofNat (0xE0 ||| (scalar >>> 12)), UInt8.ofNat (0x80 ||| ((scalar >>> 6) &&& 0x3F)),
      UInt8.ofNat (0x80 ||| (scalar &&& 0x3F))]
  else
    [UInt8.ofNat (0xF0 ||| (scalar >>> 18)), UInt8.ofNat (0x80 ||| ((scalar >>> 12) &&& 0x3F)),
      UInt8.ofNat (0x80 ||| ((scalar >>> 6) &&& 0x3F)), UInt8.ofNat (0x80 ||| (scalar &&& 0x3F))]

/-- the bytes written so far, and how many units and bytes they are -/
structure Encoded where
  output : List UInt8
  read : ℕ
  written : ℕ
  deriving DecidableEq, Repr

def Encoded.empty : Encoded := ⟨[], 0, 0⟩

/-! ## mal_utf8_encode_into -/

/-- the loop from where `units` is what is left; the fuel is the number of units left -/
def utf8EncodeLoop (capacity : ℕ) : ℕ → List UInt16 → Encoded → Encoded
  | 0, _, out => out
  | fuel + 1, units, out =>
    if units = [] then out
    else
      let (ok, read, width) := utf16ReadScalar units
      let c := if ok then read else 0xFFFD
      let encodedWidth := utf8ScalarWidth c
      if encodedWidth > capacity - out.written then out
      else utf8EncodeLoop capacity fuel (units.drop width)
        ⟨out.output ++ utf8WriteScalar c encodedWidth, out.read + width, out.written + encodedWidth⟩

def utf8EncodeInto (units : List UInt16) (capacity : ℕ) : Encoded :=
  utf8EncodeLoop capacity units.length units .empty

/-! ## mal_string_utf8_process -/

/-- a word of eight bytes has no byte from 0x80 on -/
def asciiWord (bytes : List UInt8) : Bool :=
  (pack 8 (bytes.map UInt8.toNat) &&& 0x8080808080808080) = 0

def asciiWords (bytes : List UInt8) : Bool :=
  ((pack 8 ((bytes.take 8).map UInt8.toNat) ||| pack 8 (((bytes.drop 8).take 8).map UInt8.toNat) |||
    pack 8 (((bytes.drop 16).take 8).map UInt8.toNat) ||| pack 8 (((bytes.drop 24).take 8).map UInt8.toNat)) &&&
      0x8080808080808080) = 0

def isAscii (b : UInt8) : Bool := b.toNat < 0x80

/-- mal_utf8_ascii_run_end from the start of `bytes` -/
def asciiRunEnd (bytes : List UInt8) : ℕ :=
  let i := skipBlocks 32 asciiWords bytes
  let i := i + skipBlocks 8 asciiWord (bytes.drop i)
  i + scan isAscii (bytes.drop i)

/-- MalUtf8StringCursor: the current leaf, the offset into it, and the leaves the iterator has not yielded yet -/
structure Utf8Cursor where
  segment : Segment
  offset : ℕ
  pending : List Segment

def Utf8Cursor.ready (cursor : Utf8Cursor) : Bool × Utf8Cursor :=
  if cursor.offset < cursor.segment.length then (true, cursor)
  else
    match cursor.pending with
    | segment :: pending => (true, ⟨segment, 0, pending⟩)
    | [] => (false, ⟨.latin1 [], 0, []⟩)

/-- the Latin-1 units above ASCII at the front: result, how many were taken, and whether the output is full -/
def pushLatin1High (allFits : Bool) (capacity : ℕ) : List UInt8 → Encoded → Encoded × ℕ × Bool
  | [], out => (out, 0, false)
  | unit :: rest, out =>
    if isAscii unit then (out, 0, false)
    else if !allFits && capacity - out.written < 2 then (out, 0, true)
    else
      let bytes := [UInt8.ofNat (0xC0 ||| (unit.toNat >>> 6)), UInt8.ofNat (0x80 ||| (unit.toNat &&& 0x3F))]
      let (result, count, full) := pushLatin1High allFits capacity rest ⟨out.output ++ bytes, out.read + 1, out.written + 2⟩
      (result, count + 1, full)

/-- the UTF-16 units in front of the next lead surrogate -/
def pushUtf16Run (allFits : Bool) (capacity : ℕ) : List UInt16 → Encoded → Encoded × ℕ × Bool
  | [], out => (out, 0, false)
  | unit :: rest, out =>
    if isLeadSurrogate unit then (out, 0, false)
    else
      let scalar := if isTrailSurrogate unit then 0xFFFD else unit.toNat
      let encodedWidth := utf8ScalarWidth scalar
      if !allFits && encodedWidth > capacity - out.written then (out, 0, true)
      else
        let (result, count, full) := pushUtf16Run allFits capacity rest
          ⟨out.output ++ utf8WriteScalar scalar encodedWidth, out.read + 1, out.written + encodedWidth⟩
        (result, count + 1, full)

/-- the scalar at the cursor, which may continue in the next leaf; its width in units, and the cursor after it -/
def readSpanning (cursor : Utf8Cursor) : ℕ × ℕ × Utf8Cursor :=
  let first := cursor.segment.codeUnitAt cursor.offset
  let cursor := { cursor with offset := cursor.offset + 1 }
  if isLeadSurrogate first then
    let (ready, cursor) := cursor.ready
    if ready then
      let second := cursor.segment.codeUnitAt cursor.offset
      if isTrailSurrogate second then (composePair first second, 2, { cursor with offset := cursor.offset + 1 })
      else (0xFFFD, 1, cursor)
    else (0xFFFD, 1, cursor)
  else if isTrailSurrogate first then (0xFFFD, 1, cursor)
  else (first.toNat, 1, cursor)

def utf8Round (allFits : Bool) (capacity : ℕ) (cursor : Utf8Cursor) (out : Encoded) : Encoded × Utf8Cursor × Bool :=
  match cursor.segment with
  | .latin1 units =>
    let start := cursor.offset
    let available := units.length - start
    let available := if !allFits && available > capacity - out.written then capacity - out.written else available
    let window := (units.drop start).take available
    let count := if start = 0 then asciiRunEnd window else scan isAscii window
    if count ≠ 0 then
      (⟨out.output ++ (units.drop start).take count, out.read + count, out.written + count⟩,
        { cursor with offset := start + count }, false)
    else
      let (out, count, full) := pushLatin1High allFits capacity (units.drop start) out
      (out, { cursor with offset := start + count }, full)
  | .utf16 units =>
    let (out, count, full) := pushUtf16Run allFits capacity (units.drop cursor.offset) out
    let cursor := { cursor with offset := cursor.offset + count }
    if full then (out, cursor, true)
    else if cursor.offset = units.length then (out, cursor, false)
    else
      let (scalar, width, cursor) := readSpanning cursor
      let encodedWidth := utf8ScalarWidth scalar
      if !allFits && encodedWidth > capacity - out.written then (out, cursor, true)
      else
        (⟨out.output ++ utf8WriteScalar scalar encodedWidth, out.read + width, out.written + encodedWidth⟩, cursor, false)

/-- the loop; a round takes a unit at least, so the fuel is one more than the units of the string -/
def utf8ProcessLoop (allFits : Bool) (capacity : ℕ) : ℕ → Utf8Cursor → Encoded → Encoded
  | 0, _, out => out
  | fuel + 1, cursor, out =>
    if out.written < capacity then
      let (ready, cursor) := cursor.ready
      if ready then
        let (out, cursor, done) := utf8Round allFits capacity cursor out
        if done then out else utf8ProcessLoop allFits capacity fuel cursor out
      else out
    else out

def stringUtf8EncodeInto (s : Segmentation) (capacity : ℕ) : Encoded :=
  utf8ProcessLoop (s.flat.length ≤ capacity / 3) capacity (s.flat.length + 1) ⟨.latin1 [], 0, s.segments⟩ .empty

/-! ## mal_string_utf8_length -/

def utf8LengthUnit (length : ℕ) (pendingLead : Bool) (unit : UInt16) : ℕ × Bool :=
  if pendingLead && isTrailSurrogate unit then (length + 4, false)
  else
    let length := if pendingLead then length + 3 else length
    if isLeadSurrogate unit then (length, true)
    else (length + (if unit.toNat < 0x80 then 1 else if unit.toNat < 0x800 then 2 else 3), false)

def utf8LengthSegment (state : ℕ × Bool) : Segment → ℕ × Bool
  | .latin1 units =>
    let length := if state.2 then state.1 + 3 else state.1
    (units.foldl (fun length unit => length + (unit.toNat >>> 7)) (length + units.length), false)
  | .utf16 units => units.foldl (fun state unit => utf8LengthUnit state.1 state.2 unit) state

section

variable (capacity : ℕ) (ss : List (ℕ × ℕ))

def stringUtf8Length (s : Segmentation) : ℕ :=
  let (length, pendingLead) := s.segments.foldl utf8LengthSegment (0, false)
  if pendingLead then length + 3 else length

/-! ## What is encoded -/

def scalarBytes : List UInt8 := ss.flatMap fun s => utf8WriteScalar s.1 (utf8ScalarWidth s.1)

def byteCount : ℕ := (ss.map fun s => utf8ScalarWidth s.1).sum

def unitCount : ℕ := (ss.map Prod.snd).sum

def fit : ℕ → List (ℕ × ℕ) → List (ℕ × ℕ)
  | _, [] => []
  | capacity, s :: ss =>
    if utf8ScalarWidth s.1 ≤ capacity then s :: fit (capacity - utf8ScalarWidth s.1) ss else []

def IsLongestFit (p : List (ℕ × ℕ)) : Prop :=
  p <+: ss ∧ byteCount p ≤ capacity ∧ ∀ q, q <+: ss → byteCount q ≤ capacity → q <+: p

theorem fit_isLongestFit : IsLongestFit capacity ss (fit capacity ss) := by
  induction ss generalizing capacity with
  | nil => exact ⟨prefix_refl _, Nat.zero_le _, fun q hq _ => hq⟩
  | cons s ss ih =>
    rw [fit]
    split_ifs with hfits
    · obtain ⟨h1, h2, h3⟩ := ih (capacity - utf8ScalarWidth s.1)
      refine ⟨(prefix_cons_inj s).2 h1, ?_, fun q hq hle => ?_⟩
      · simp only [byteCount, map_cons, sum_cons] at *
        omega
      cases q with
      | nil => exact List.nil_prefix
      | cons t q =>
        obtain ⟨rfl, hrest⟩ := List.cons_prefix_cons.1 hq
        refine (prefix_cons_inj t).2 (h3 q hrest ?_)
        simp only [byteCount, map_cons, sum_cons] at *
        omega
    · refine ⟨List.nil_prefix, Nat.zero_le _, fun q hq hle => ?_⟩
      cases q with
      | nil => exact List.nil_prefix
      | cons t q =>
        obtain ⟨rfl, -⟩ := List.cons_prefix_cons.1 hq
        simp only [byteCount, map_cons, sum_cons] at hle
        omega

def Encoded.push (out : Encoded) (s : ℕ × ℕ) : Encoded :=
  ⟨out.output ++ utf8WriteScalar s.1 (utf8ScalarWidth s.1), out.read + s.2, out.written + utf8ScalarWidth s.1⟩

/-- scalars pushed while they fit: what both encoders compute -/
def encodeFit (capacity : ℕ) : Encoded → List (ℕ × ℕ) → Encoded
  | out, [] => out
  | out, s :: ss => if utf8ScalarWidth s.1 ≤ capacity - out.written then encodeFit capacity (out.push s) ss else out

theorem encodeFit_eq (out : Encoded) (ss : List (ℕ × ℕ)) :
    encodeFit capacity out ss = ⟨out.output ++ scalarBytes (fit (capacity - out.written) ss),
      out.read + unitCount (fit (capacity - out.written) ss), out.written + byteCount (fit (capacity - out.written) ss)⟩ := by
  induction ss generalizing out with
  | nil => simp [encodeFit, fit, scalarBytes, unitCount, byteCount]
  | cons s ss ih =>
    rw [encodeFit, fit]
    split_ifs with hfits
    · rw [ih, Encoded.push, Nat.sub_add_eq]
      simp [scalarBytes, unitCount, byteCount, Nat.add_assoc]
    · simp [scalarBytes, unitCount, byteCount]

end

theorem utf8ScalarWidth_pos (scalar : ℕ) : 0 < utf8ScalarWidth scalar := by
  unfold utf8ScalarWidth
  split_ifs <;> omega

theorem utf8ScalarWidth_le (scalar : ℕ) : utf8ScalarWidth scalar ≤ 4 := by
  unfold utf8ScalarWidth
  split_ifs <;> omega

theorem encodeFit_full {capacity : ℕ} {out : Encoded} (h : capacity ≤ out.written) (ss : List (ℕ × ℕ)) :
    encodeFit capacity out ss = out := by
  cases ss with
  | nil => rfl
  | cons s ss =>
    have := utf8ScalarWidth_pos s.1
    rw [encodeFit, if_neg (by omega)]

/-! ## The flat encoder -/

theorem codePointWidth_pos (units : List UInt16) : 0 < codePointWidth units := by
  unfold codePointWidth
  split
  · split_ifs <;> omega
  · omega

theorem utf8EncodeLoop_eq (capacity : ℕ) (fuel : ℕ) (units : List UInt16) (out : Encoded) (h : units.length ≤ fuel) :
    utf8EncodeLoop capacity fuel units out = encodeFit capacity out (scalars units) := by
  induction fuel generalizing units out with
  | zero =>
    rw [length_eq_zero_iff.1 (Nat.le_zero.1 h)]
    rfl
  | succ fuel ih =>
    cases units with
    | nil => rfl
    | cons first rest =>
      rw [utf8EncodeLoop, scalars_read, encodeFit, if_neg (cons_ne_nil _ _)]
      have hwidth : 0 < (utf16ReadScalar (first :: rest)).2.2 := by
        unfold utf16ReadScalar
        dsimp only
        split_ifs <;> exact codePointWidth_pos _
      rcases hread : utf16ReadScalar (first :: rest) with ⟨ok, read, width⟩
      rw [hread] at hwidth
      dsimp only at hwidth ⊢
      by_cases hfits : utf8ScalarWidth (if ok = true then read else 0xFFFD) ≤ capacity - out.written
      · rw [if_neg (by omega), if_pos hfits, ih _ _ (by rw [length_drop]; omega)]
        rfl
      · rw [if_pos (by omega), if_neg hfits]

theorem utf8EncodeInto_eq (units : List UInt16) (capacity : ℕ) :
    utf8EncodeInto units capacity = encodeFit capacity .empty (scalars units) :=
  utf8EncodeLoop_eq capacity _ _ _ le_rfl

/-! ## The segmented encoder -/

section Process

variable {allFits : Bool} {capacity : ℕ}

theorem not_lead_of_latin1 (unit : UInt8) : isLeadSurrogate unit.toUInt16 = false := by
  have := unit.toNat_lt
  simp only [isLeadSurrogate, UInt8.toNat_toUInt16, Bool.and_eq_false_iff, decide_eq_false_iff_not]
  omega

theorem not_trail_of_latin1 (unit : UInt8) : isTrailSurrogate unit.toUInt16 = false := by
  have := unit.toNat_lt
  simp only [isTrailSurrogate, UInt8.toNat_toUInt16, Bool.and_eq_false_iff, decide_eq_false_iff_not]
  omega

theorem replaceLone_latin1 (unit : UInt8) : replaceLone unit.toUInt16 = unit.toNat := by
  have := unit.toNat_lt
  rw [replaceLone, if_neg, UInt8.toNat_toUInt16]
  simp only [isSurrogate, UInt8.toNat_toUInt16, Bool.and_eq_true, decide_eq_true_eq]
  omega

theorem replaceLone_not_lead {unit : UInt16} (h : isLeadSurrogate unit = false) :
    replaceLone unit = if isTrailSurrogate unit then 0xFFFD else unit.toNat := by
  rw [replaceLone, isSurrogate_iff, h, Bool.false_or]

theorem encodeFit_unit {unit : UInt16} (h : isLeadSurrogate unit = false) (rest : List UInt16) (out : Encoded) :
    encodeFit capacity out (scalars (unit :: rest)) = if utf8ScalarWidth (replaceLone unit) ≤ capacity - out.written
      then encodeFit capacity (out.push (replaceLone unit, 1)) (scalars rest) else out := by
  rw [scalars_of_not_lead h, encodeFit]

theorem encodeFit_ascii (run : List UInt8) (rest : List UInt16) (hrun : ∀ u ∈ run, isAscii u = true) :
    ∀ out : Encoded, run.length ≤ capacity - out.written →
      encodeFit capacity out (scalars (run.map UInt8.toUInt16 ++ rest)) =
        encodeFit capacity ⟨out.output ++ run, out.read + run.length, out.written + run.length⟩ (scalars rest) := by
  induction run with
  | nil => intro out _; simp
  | cons unit run ih =>
    intro out hle
    have hascii : unit.toNat < 0x80 := by simpa [isAscii] using hrun unit (mem_cons_self ..)
    have hwidth : utf8ScalarWidth (replaceLone unit.toUInt16) = 1 := by
      rw [replaceLone_latin1, utf8ScalarWidth, if_pos hascii]
    rw [length_cons] at hle
    rw [map_cons, cons_append, encodeFit_unit (not_lead_of_latin1 unit), if_pos (by omega)]
    have hpush : out.push (replaceLone unit.toUInt16, 1) = ⟨out.output ++ [unit], out.read + 1, out.written + 1⟩ := by
      rw [Encoded.push, hwidth, replaceLone_latin1, utf8WriteScalar, if_pos rfl, UInt8.ofNat_toNat]
    rw [hpush, ih (fun u hu => hrun u (mem_cons_of_mem _ hu)) _ (by dsimp only; omega)]
    simp [Nat.add_assoc, Nat.add_comm 1]

/-- when the string must fit, three bytes for each unit left are free -/
def Room (allFits : Bool) (capacity remaining : ℕ) (out : Encoded) : Prop :=
  allFits = true → out.written + 3 * remaining ≤ capacity

/-- what one of the inner loops does to the units in front of `rest` -/
structure Pushed (allFits : Bool) (capacity : ℕ) (units rest : List UInt16) (out : Encoded)
    (result : Encoded × ℕ × Bool) : Prop where
  count : result.2.1 ≤ units.length
  encoded : encodeFit capacity out (scalars (units ++ rest)) =
    if result.2.2 then result.1 else encodeFit capacity result.1 (scalars (units.drop result.2.1 ++ rest))
  room : Room allFits capacity (units ++ rest).length out →
    Room allFits capacity (units.drop result.2.1 ++ rest).length result.1

theorem Pushed.stop (units rest : List UInt16) (out : Encoded) : Pushed allFits capacity units rest out (out, 0, false) :=
  ⟨Nat.zero_le _, rfl, id⟩

variable {scalar remaining width offset : ℕ} {block : List UInt8}

theorem utf8ScalarWidth_le_three (h : scalar < 0x10000) : utf8ScalarWidth scalar ≤ 3 := by
  unfold utf8ScalarWidth
  split_ifs <;> omega

theorem replaceLone_lt (unit : UInt16) : replaceLone unit < 0x10000 := by
  have := unit.toNat_lt
  unfold replaceLone
  split_ifs <;> omega

variable {out : Encoded} {units : List UInt16} {cursor : Utf8Cursor}

theorem refuse_iff (unit : UInt16) (hroom : Room allFits capacity (remaining + 1) out) :
    (!allFits && utf8ScalarWidth (replaceLone unit) > capacity - out.written) = true ↔
      ¬ utf8ScalarWidth (replaceLone unit) ≤ capacity - out.written := by
  have hle := utf8ScalarWidth_le_three (replaceLone_lt unit)
  cases allFits with
  | false => simp
  | true =>
    have := hroom rfl
    simp only [Bool.not_true, Bool.false_and, Bool.false_eq_true, false_iff]
    omega

theorem width_le_of_mem_scalars {s : ℕ × ℕ} (h : s ∈ scalars units) : utf8ScalarWidth s.1 ≤ 3 * s.2 := by
  induction units using scalars.induct with
  | case1 => cases h
  | case2 first =>
    obtain rfl : s = (replaceLone first, 1) := by simpa [scalars] using h
    exact utf8ScalarWidth_le_three (replaceLone_lt first)
  | case3 first second rest hp ih =>
    rw [scalars_pair hp, mem_cons] at h
    rcases h with rfl | h
    · exact (utf8ScalarWidth_le _).trans (by omega)
    · exact ih h
  | case4 first second rest hp ih =>
    rw [scalars, if_neg hp, mem_cons] at h
    rcases h with rfl | h
    · exact utf8ScalarWidth_le_three (replaceLone_lt first)
    · exact ih h

theorem Pushed.unit {unit : UInt16} {rest : List UInt16} {result : Encoded × ℕ × Bool}
    (hlead : isLeadSurrogate unit = false) (hfits : utf8ScalarWidth (replaceLone unit) ≤ capacity - out.written)
    (h : Pushed allFits capacity units rest (out.push (replaceLone unit, 1)) result) :
    Pushed allFits capacity (unit :: units) rest out (result.1, result.2.1 + 1, result.2.2) := by
  refine ⟨Nat.succ_le_succ h.count, ?_, fun hroom => h.room fun hall => ?_⟩
  · rw [cons_append, encodeFit_unit hlead, if_pos hfits, h.encoded]
    rfl
  · have := hroom hall
    have hle := utf8ScalarWidth_le_three (replaceLone_lt unit)
    simp only [Encoded.push, cons_append, length_cons] at this ⊢
    omega

theorem Pushed.full {unit : UInt16} {rest : List UInt16} (hlead : isLeadSurrogate unit = false)
    (hfits : ¬ utf8ScalarWidth (replaceLone unit) ≤ capacity - out.written) :
    Pushed allFits capacity (unit :: units) rest out (out, 0, true) :=
  ⟨Nat.zero_le _, by rw [cons_append, encodeFit_unit hlead, if_neg hfits]; rfl, id⟩

theorem pushUtf16Run_pushed (rest : List UInt16) (units : List UInt16) (out : Encoded)
    (hroom : Room allFits capacity (units ++ rest).length out) :
    Pushed allFits capacity units rest out (pushUtf16Run allFits capacity units out) := by
  induction units generalizing out with
  | nil => exact Pushed.stop [] rest out
  | cons unit units ih =>
    rw [pushUtf16Run]
    cases hlead : isLeadSurrogate unit with
    | true => exact Pushed.stop _ rest out
    | false =>
    rw [if_neg Bool.false_ne_true, ← replaceLone_not_lead hlead]
    rw [cons_append, length_cons] at hroom
    dsimp only
    split_ifs with hfull
    · exact Pushed.full hlead ((refuse_iff unit hroom).1 hfull)
    have hfits := not_not.1 (mt (refuse_iff unit hroom).2 hfull)
    refine Pushed.unit hlead hfits (ih _ fun hall => ?_)
    have := hroom hall
    have hle := utf8ScalarWidth_le_three (replaceLone_lt unit)
    simp only [Encoded.push]
    omega

theorem utf8ScalarWidth_latin1 {unit : UInt8} (h : ¬ isAscii unit = true) :
    utf8ScalarWidth (replaceLone unit.toUInt16) = 2 := by
  have hlt := unit.toNat_lt
  have hge : ¬ unit.toNat < 0x80 := by simpa [isAscii] using h
  rw [replaceLone_latin1, utf8ScalarWidth, if_neg hge, if_pos (by omega)]

theorem pushLatin1High_pushed (rest : List UInt16) (units : List UInt8) (out : Encoded)
    (hroom : Room allFits capacity (units.map UInt8.toUInt16 ++ rest).length out) :
    Pushed allFits capacity (units.map UInt8.toUInt16) rest out (pushLatin1High allFits capacity units out) := by
  induction units generalizing out with
  | nil => exact Pushed.stop [] rest out
  | cons unit units ih =>
    rw [pushLatin1High]
    rw [map_cons, cons_append, length_cons] at hroom
    have hlead := not_lead_of_latin1 unit
    have hrefuse := refuse_iff unit.toUInt16 hroom
    split_ifs with hascii hfull
    · exact Pushed.stop _ rest out
    all_goals
      have hwidth := utf8ScalarWidth_latin1 hascii
      rw [hwidth] at hrefuse
    · exact Pushed.full hlead (by rw [hwidth]; exact hrefuse.1 hfull)
    have hfits := not_not.1 (mt hrefuse.2 hfull)
    have hpush : out.push (replaceLone unit.toUInt16, 1) = ⟨out.output ++
        [UInt8.ofNat (0xC0 ||| (unit.toNat >>> 6)), UInt8.ofNat (0x80 ||| (unit.toNat &&& 0x3F))],
        out.read + 1, out.written + 2⟩ := by
      rw [Encoded.push, hwidth, replaceLone_latin1]
      rfl
    have hnext := ih (out.push (replaceLone unit.toUInt16, 1)) fun hall => by
      have := hroom hall
      simp only [Encoded.push]
      omega
    exact Pushed.unit hlead (by rw [hwidth]; exact hfits) (hpush ▸ hnext)

/-- no leaf is empty -/
abbrev Leaves (segments : List Segment) : Prop := ∀ segment ∈ segments, segment.units ≠ []

def Utf8Cursor.rest (cursor : Utf8Cursor) : List UInt16 :=
  cursor.segment.units.drop cursor.offset ++ flatUnits cursor.pending

theorem ready_true (hne : Leaves cursor.pending)
    (h : cursor.rest ≠ []) : cursor.ready.1 = true ∧ cursor.ready.2.rest = cursor.rest ∧
      cursor.ready.2.offset < cursor.ready.2.segment.length ∧ Leaves cursor.ready.2.pending := by
  rcases cursor with ⟨segment, offset, pending⟩
  unfold Utf8Cursor.ready
  split_ifs with hlt
  · exact ⟨rfl, rfl, hlt, hne⟩
  have hdrop : segment.units.drop offset = [] := drop_eq_nil_of_le (Nat.le_of_not_lt hlt)
  cases pending with
  | nil => simp [Utf8Cursor.rest, hdrop] at h
  | cons next pending =>
    refine ⟨rfl, ?_, length_pos_iff.2 (hne next (mem_cons_self ..)), fun s hs => hne s (mem_cons_of_mem _ hs)⟩
    simp [Utf8Cursor.rest, hdrop]

theorem ready_false (h : cursor.rest = []) (hne : Leaves cursor.pending) :
    cursor.ready = (false, ⟨.latin1 [], 0, []⟩) := by
  rcases cursor with ⟨segment, offset, pending⟩
  simp only [Utf8Cursor.rest, append_eq_nil_iff, drop_eq_nil_iff] at h
  unfold Utf8Cursor.ready
  rw [if_neg (by unfold Segment.length; dsimp only; omega)]
  cases pending with
  | nil => rfl
  | cons next pending =>
    have := hne next (mem_cons_self ..)
    simp [this] at h

theorem rest_cons (h : cursor.offset < cursor.segment.length) :
    cursor.rest = cursor.segment.codeUnitAt cursor.offset :: { cursor with offset := cursor.offset + 1 }.rest := by
  rw [Utf8Cursor.rest, Utf8Cursor.rest, drop_eq_getElem_cons h, Segment.codeUnitAt,
    getD_eq_getElem _ _ h, cons_append]

theorem replaceLone_eq (unit : UInt16) : replaceLone unit =
    if isLeadSurrogate unit then 0xFFFD else if isTrailSurrogate unit then 0xFFFD else unit.toNat := by
  rw [replaceLone, isSurrogate_iff]
  cases isLeadSurrogate unit <;> rfl

theorem readSpanning_spec (hne : Leaves cursor.pending)
    (h : cursor.offset < cursor.segment.length) {cursor' : Utf8Cursor}
    (hread : readSpanning cursor = (scalar, width, cursor')) :
    scalars cursor.rest = (scalar, width) :: scalars cursor'.rest ∧ cursor.rest.length = width + cursor'.rest.length ∧
      0 < width ∧ Leaves cursor'.pending := by
  rw [rest_cons h]
  unfold readSpanning at hread
  dsimp only at hread
  set first := cursor.segment.codeUnitAt cursor.offset
  set next : Utf8Cursor := { cursor with offset := cursor.offset + 1 } with hnext
  have hne' : Leaves next.pending := hne
  -- a unit that opens no pair is itself, or U+FFFD
  have alone : ∀ c : Utf8Cursor, c.rest = next.rest → Leaves c.pending →
      (∀ second ∈ next.rest.head?, isPair first second = false) → (replaceLone first, 1, c) = (scalar, width, cursor') →
      scalars (first :: next.rest) = (scalar, width) :: scalars cursor'.rest ∧
        (first :: next.rest).length = width + cursor'.rest.length ∧ 0 < width ∧
        Leaves cursor'.pending := by
    rintro c hrest hcne hpair heq
    obtain ⟨rfl, rfl, rfl⟩ : replaceLone first = scalar ∧ 1 = width ∧ c = cursor' := by simpa using heq
    exact ⟨by rw [scalars_cons hpair, hrest], by rw [hrest, length_cons, Nat.add_comm], Nat.one_pos, hcne⟩
  by_cases hlead : isLeadSurrogate first = true
  · have hfffd : replaceLone first = 0xFFFD := by rw [replaceLone_eq, if_pos hlead]
    rw [if_pos hlead] at hread
    by_cases hrest : next.rest = []
    · rw [ready_false hrest hne', ← hfffd] at hread
      exact alone ⟨.latin1 [], 0, []⟩ hrest.symm nofun (by rw [hrest]; simp) hread
    obtain ⟨hr, hr', hlt, hrne⟩ := ready_true hne' hrest
    rw [hr] at hread
    have hcons := rest_cons hlt
    rw [hr'] at hcons
    set second := next.ready.2.segment.codeUnitAt next.ready.2.offset
    by_cases htrail : isTrailSurrogate second = true
    · rw [if_pos htrail] at hread
      obtain ⟨rfl, rfl, rfl⟩ : _ ∧ 2 = width ∧ _ := by simpa using hread
      have hpair : isPair first second = true := by rw [isPair, hlead, htrail]; rfl
      refine ⟨by rw [hcons, scalars_pair hpair], ?_, Nat.two_pos, hrne⟩
      rw [hcons, length_cons, length_cons]
      omega
    rw [if_neg htrail, ← hfffd] at hread
    refine alone _ hr' hrne ?_ hread
    intro u hu
    rw [hcons] at hu
    obtain rfl : second = u := by simpa using hu
    rw [isPair, Bool.eq_false_iff.2 htrail, Bool.and_false]
  · have hrepl : replaceLone first = if isTrailSurrogate first then 0xFFFD else first.toNat := by
      rw [replaceLone_eq, if_neg hlead]
    refine alone next rfl hne' (fun u _ => by rw [isPair, Bool.eq_false_iff.2 hlead, Bool.false_and]) ?_
    rw [hrepl]
    split_ifs at hread ⊢ with htrail <;> exact hread

/-- one round: either the encoding is complete, or units have been taken -/
structure Round (allFits : Bool) (capacity : ℕ) (cursor : Utf8Cursor) (out : Encoded)
    (result : Encoded × Utf8Cursor × Bool) : Prop where
  encoded : encodeFit capacity out (scalars cursor.rest) =
    if result.2.2 then result.1 else encodeFit capacity result.1 (scalars result.2.1.rest)
  shorter : result.2.2 = false → result.2.1.rest.length < cursor.rest.length
  room : result.2.2 = false → Room allFits capacity result.2.1.rest.length result.1
  nonempty : result.2.2 = false → ∀ segment ∈ result.2.1.pending, segment.units ≠ []

theorem asciiWord_clear (hlen : block.length = 8) (h : asciiWord block = true) : ∀ u ∈ block, isAscii u = true := by
  intro u hu
  have hzero : pack 8 (block.map UInt8.toNat) &&& splat 8 (2 ^ (8 - 1)) (block.map UInt8.toNat).length = 0 := by
    rw [length_map, hlen]
    simpa [asciiWord, splat, pack] using h
  have := lt_of_and_top_eq_zero (by omega) (fun l hl => by
    obtain ⟨v, -, rfl⟩ := mem_map.1 hl
    exact v.toNat_lt) hzero u.toNat (mem_map_of_mem hu)
  simpa [isAscii] using this

theorem asciiWords_clear (hlen : block.length = 32) (h : asciiWords block = true) : ∀ u ∈ block, isAscii u = true := by
  simp only [asciiWords, Nat.and_or_distrib_right, Nat.or_eq_zero_iff, decide_eq_true_eq] at h
  obtain ⟨⟨⟨h1, h2⟩, h3⟩, h4⟩ := h
  have hblock : block = block.take 8 ++ ((block.drop 8).take 8 ++ ((block.drop 16).take 8 ++ (block.drop 24).take 8)) := by
    have hlast : (block.drop 24).take 8 = block.drop 24 := take_of_length_le (by rw [length_drop]; omega)
    have h16 : block.drop 16 = (block.drop 16).take 8 ++ block.drop 24 := by
      conv_lhs => rw [← take_append_drop 8 (block.drop 16), drop_drop]
    have h8 : block.drop 8 = (block.drop 8).take 8 ++ block.drop 16 := by
      conv_lhs => rw [← take_append_drop 8 (block.drop 8), drop_drop]
    rw [hlast, ← h16, ← h8, take_append_drop]
  intro u hu
  rw [hblock] at hu
  simp only [mem_append] at hu
  rcases hu with hu | hu | hu | hu
  · exact asciiWord_clear (by rw [length_take]; omega) (by simpa [asciiWord] using h1) u hu
  · exact asciiWord_clear (by rw [length_take, length_drop]; omega) (by simpa [asciiWord] using h2) u hu
  · exact asciiWord_clear (by rw [length_take, length_drop]; omega) (by simpa [asciiWord] using h3) u hu
  · exact asciiWord_clear (by rw [length_take, length_drop]; omega) (by simpa [asciiWord] using h4) u hu

theorem asciiRunEnd_eq (bytes : List UInt8) : asciiRunEnd bytes = scan isAscii bytes := by
  unfold asciiRunEnd
  dsimp only
  rw [← drop_drop, Nat.add_assoc, skipBlocks_add_scan fun _ hlen h => asciiWord_clear hlen h,
    skipBlocks_add_scan fun _ hlen h => asciiWords_clear hlen h]

theorem utf8Round_latin1 {units : List UInt8} {pending : List Segment}
    (hlt : offset < units.length) (hne : Leaves pending) (hfree : out.written < capacity)
    (hroom : Room allFits capacity (Utf8Cursor.rest ⟨.latin1 units, offset, pending⟩).length out) :
    Round allFits capacity ⟨.latin1 units, offset, pending⟩ out
      (utf8Round allFits capacity ⟨.latin1 units, offset, pending⟩ out) := by
  have hrest : ∀ k, Utf8Cursor.rest ⟨.latin1 units, offset + k, pending⟩ =
      ((units.drop offset).drop k).map UInt8.toUInt16 ++ flatUnits pending := fun k => by
    rw [Utf8Cursor.rest, Segment.units, drop_drop, ← map_drop]
  have hrest0 := hrest 0
  rw [Nat.add_zero, drop_zero] at hrest0
  have hlen : (units.drop offset).length = units.length - offset := length_drop
  unfold utf8Round
  dsimp only
  set available := if (!allFits && decide (units.length - offset > capacity - out.written)) = true
    then capacity - out.written else units.length - offset with havail
  have hcount : (if offset = 0 then asciiRunEnd ((units.drop offset).take available)
      else scan isAscii ((units.drop offset).take available)) = scan isAscii ((units.drop offset).take available) := by
    rw [asciiRunEnd_eq, ite_self]
  rw [hcount]
  set window := (units.drop offset).take available with hwindow
  have hbounds : 0 < available ∧ available ≤ units.length - offset ∧ available ≤ capacity - out.written := by
    rw [havail]
    split_ifs with hcut
    · rw [Bool.and_eq_true, decide_eq_true_eq] at hcut
      omega
    refine ⟨by omega, le_rfl, ?_⟩
    cases allFits with
    | false => simpa using hcut
    | true =>
      have := hroom rfl
      rw [hrest0, length_append, length_map] at this
      omega
  have hwlen : window.length = available := by rw [length_take]; omega
  by_cases hzero : scan isAscii window = 0
  · -- the unit at the cursor is above ASCII
    rw [if_neg (not_not.2 hzero)]
    have hp : Pushed allFits capacity _ _ out (pushLatin1High allFits capacity (units.drop offset) out) :=
      pushLatin1High_pushed (flatUnits pending) (units.drop offset) out (hrest0 ▸ hroom)
    rcases hres : pushLatin1High allFits capacity (units.drop offset) out with ⟨out', count, full⟩
    rw [hres] at hp
    obtain ⟨hle, henc, hroom'⟩ := hp
    dsimp only at hle henc hroom' ⊢
    have hpos : full = false → 0 < count := by
      rintro rfl
      by_contra hc
      obtain ⟨first, rest, hcons⟩ := exists_cons_of_length_pos (l := units.drop offset) (by omega)
      have hhigh : ¬ isAscii first = true := by
        intro ha
        obtain ⟨k, hk⟩ : ∃ k, available = k + 1 := ⟨available - 1, by omega⟩
        rw [hwindow, hcons, hk, take_succ_cons, scan, takeWhile_cons_of_pos ha] at hzero
        simp at hzero
      rw [hcons, pushLatin1High] at hres
      split_ifs at hres
      · simp at hres
      · simp only [Prod.mk.injEq] at hres
        omega
    refine ⟨?_, fun hfull => ?_, fun hfull => ?_, fun _ => hne⟩
    · rw [hrest0, henc, hrest, map_drop (l := units.drop offset)]
    · have := hpos hfull
      rw [hrest, hrest0, length_append, length_append, length_map, length_map, length_drop]
      omega
    · rw [hrest, map_drop]
      exact hroom' (hrest0 ▸ hroom)
  · rw [if_pos hzero]
    set count := scan isAscii window with hscan
    have hcle : count ≤ available := hwlen ▸ scan_le isAscii window
    have hrun : (units.drop offset).take count = window.takeWhile isAscii := by
      rw [← take_scan, take_take, Nat.min_eq_left hcle]
    have hascii : ∀ u ∈ (units.drop offset).take count, isAscii u = true := by
      rw [hrun]
      exact fun u hu => mem_takeWhile_imp hu
    have hrlen : ((units.drop offset).take count).length = count := by rw [length_take]; omega
    have hsplit : Utf8Cursor.rest ⟨.latin1 units, offset, pending⟩ =
        ((units.drop offset).take count).map UInt8.toUInt16 ++ Utf8Cursor.rest ⟨.latin1 units, offset + count, pending⟩ := by
      rw [hrest0, hrest, ← append_assoc, ← map_append, take_append_drop]
    have henc : encodeFit capacity out _ = _ := encodeFit_ascii ((units.drop offset).take count)
      (Utf8Cursor.rest ⟨.latin1 units, offset + count, pending⟩) hascii out (by omega)
    rw [hrlen] at henc
    refine ⟨?_, fun _ => ?_, fun _ hall => ?_, fun _ => hne⟩
    · rw [hsplit, henc, if_neg Bool.false_ne_true]
    · rw [hsplit, length_append, length_map]
      dsimp only
      omega
    · have := hroom hall
      rw [hsplit, length_append, length_map] at this
      dsimp only
      omega

theorem utf8Round_utf16 {pending : List Segment} (hlt : offset < units.length) (hne : Leaves pending)
    (hroom : Room allFits capacity (Utf8Cursor.rest ⟨.utf16 units, offset, pending⟩).length out) :
    Round allFits capacity ⟨.utf16 units, offset, pending⟩ out
      (utf8Round allFits capacity ⟨.utf16 units, offset, pending⟩ out) := by
  have hrest : ∀ k, Utf8Cursor.rest ⟨.utf16 units, offset + k, pending⟩ =
      (units.drop offset).drop k ++ flatUnits pending := fun k => by
    rw [Utf8Cursor.rest, Segment.units, drop_drop]
  have hrest0 : Utf8Cursor.rest ⟨.utf16 units, offset, pending⟩ = units.drop offset ++ flatUnits pending := rfl
  have hp : Pushed allFits capacity _ _ out (pushUtf16Run allFits capacity (units.drop offset) out) :=
    pushUtf16Run_pushed (flatUnits pending) (units.drop offset) out hroom
  unfold utf8Round
  dsimp only
  rcases hres : pushUtf16Run allFits capacity (units.drop offset) out with ⟨out', count, full⟩
  rw [hres] at hp
  obtain ⟨hle, henc, hroom'⟩ := hp
  replace hroom' := hroom' hroom
  dsimp only at hle henc hroom' ⊢
  rw [length_drop] at hle
  rw [← hrest] at henc hroom'
  cases full with
  | true => exact ⟨henc, nofun, nofun, nofun⟩
  | false =>
  rw [if_neg Bool.false_ne_true] at henc ⊢
  by_cases hend : offset + count = units.length
  · rw [if_pos hend]
    refine ⟨henc, fun _ => ?_, fun _ => hroom', fun _ => hne⟩
    rw [hrest, hrest0, length_append, length_append, length_drop, length_drop]
    omega
  -- a lead surrogate is at the cursor
  rcases hread : readSpanning ⟨.utf16 units, offset + count, pending⟩ with ⟨scalar, width, cursor'⟩
  have hinside : offset + count < (Segment.utf16 units).length := by
    rw [Segment.length, Segment.units]
    omega
  obtain ⟨hscalars, hlength, hwidth, hne'⟩ := readSpanning_spec hne hinside hread
  have hshort : (Utf8Cursor.rest ⟨.utf16 units, offset + count, pending⟩).length ≤
      (Utf8Cursor.rest ⟨.utf16 units, offset, pending⟩).length := by
    rw [hrest, hrest0, length_append, length_append, length_drop]
    omega
  have hpair : utf8ScalarWidth scalar ≤ 3 * width := by
    exact width_le_of_mem_scalars (hscalars ▸ mem_cons_self ..)
  rw [hscalars, encodeFit] at henc
  dsimp only at henc ⊢
  split_ifs with hrefuse
  · rw [Bool.and_eq_true, decide_eq_true_eq] at hrefuse
    rw [if_neg (by omega)] at henc
    exact ⟨henc, nofun, nofun, nofun⟩
  have hfits : utf8ScalarWidth scalar ≤ capacity - out'.written := by
    cases hall : allFits with
    | false => simpa [hall] using hrefuse
    | true =>
      have := hroom' hall
      omega
  rw [if_pos hfits] at henc
  refine ⟨henc, fun _ => ?_, fun _ hall => ?_, fun _ => hne'⟩
  · dsimp only
    omega
  · have := hroom' hall
    dsimp only
    omega

theorem utf8ProcessLoop_eq : ∀ (fuel : ℕ) (cursor : Utf8Cursor) (out : Encoded), cursor.rest.length < fuel →
    Leaves cursor.pending → Room allFits capacity cursor.rest.length out →
      utf8ProcessLoop allFits capacity fuel cursor out = encodeFit capacity out (scalars cursor.rest) := by
  intro fuel
  induction fuel with
  | zero => intro cursor out h; omega
  | succ fuel ih =>
    intro cursor out hfuel hne hroom
    rw [utf8ProcessLoop]
    split_ifs with hfree
    · by_cases hrest : cursor.rest = []
      · rw [ready_false hrest hne, hrest]
        rfl
      obtain ⟨hready, heq, hlt, hne'⟩ := ready_true hne hrest
      rcases hcur : cursor.ready with ⟨ready, segment, offset, pending⟩
      rw [hcur] at hready heq hlt hne'
      dsimp only at hready hlt hne' heq ⊢
      rw [if_pos hready, ← heq]
      have hround : Round allFits capacity ⟨segment, offset, pending⟩ out
          (utf8Round allFits capacity ⟨segment, offset, pending⟩ out) := by
        cases segment with
        | latin1 units => exact utf8Round_latin1 (Segment.length_latin1 units ▸ hlt) hne' hfree (heq ▸ hroom)
        | utf16 units => exact utf8Round_utf16 hlt hne' (heq ▸ hroom)
      rcases hres : utf8Round allFits capacity ⟨segment, offset, pending⟩ out with ⟨out', cursor', done⟩
      rw [hres] at hround
      obtain ⟨henc, hshort, hroom', hne''⟩ := hround
      dsimp only at henc hshort hroom' hne'' ⊢
      rw [henc]
      cases done with
      | true => rfl
      | false =>
        have := hshort rfl
        exact ih cursor' out' (by rw [heq] at this; omega) (hne'' rfl) (hroom' rfl)
    · rw [encodeFit_full (Nat.le_of_not_lt hfree)]

theorem stringUtf8EncodeInto_eq (s : Segmentation) (capacity : ℕ) :
    stringUtf8EncodeInto s capacity = encodeFit capacity .empty (scalars s.flat) := by
  refine utf8ProcessLoop_eq _ ⟨.latin1 [], 0, s.segments⟩ .empty ?_ s.nonempty fun hall => ?_
  · exact Nat.lt_succ_self s.flat.length
  · rw [decide_eq_true_eq] at hall
    change 0 + 3 * s.flat.length ≤ capacity
    omega

end Process

/-! ## The counter -/

def pendingBytes (pendingLead : Bool) (units : List UInt16) : ℕ :=
  byteCount (scalars (if pendingLead then 0xD800 :: units else units))

theorem byteCount_cons (s : ℕ × ℕ) (ss : List (ℕ × ℕ)) : byteCount (s :: ss) = utf8ScalarWidth s.1 + byteCount ss := by
  simp [byteCount]

theorem utf8ScalarWidth_pair {lead trail : UInt16} (h : isPair lead trail = true) :
    utf8ScalarWidth (composePair lead trail) = 4 := by
  have := composePair_range h
  rw [utf8ScalarWidth, if_neg (by omega), if_neg (by omega), if_neg (by omega)]

theorem byteCount_lone_lead {lead : UInt16} (h : isLeadSurrogate lead = true) {rest : List UInt16}
    (hrest : ∀ second ∈ rest.head?, isTrailSurrogate second = false) :
    byteCount (scalars (lead :: rest)) = 3 + byteCount (scalars rest) := by
  rw [scalars_cons fun second hs => by rw [isPair, hrest second hs, Bool.and_false], replaceLone_eq, if_pos h]
  rfl

theorem byteCount_lead {lead : UInt16} (h : isLeadSurrogate lead = true) (rest : List UInt16) :
    byteCount (scalars (lead :: rest)) = pendingBytes true rest := by
  rw [pendingBytes, if_pos rfl]
  have h0 : isLeadSurrogate 0xD800 = true := by decide
  cases rest with
  | nil => rw [byteCount_lone_lead h (by simp), byteCount_lone_lead h0 (by simp)]
  | cons second rest =>
    cases ht : isTrailSurrogate second with
    | false => rw [byteCount_lone_lead h (by simpa using ht), byteCount_lone_lead h0 (by simpa using ht)]
    | true =>
      have hp : ∀ {l : UInt16}, isLeadSurrogate l = true → isPair l second = true := fun hl => by rw [isPair, hl, ht]; rfl
      rw [scalars_pair (hp h), scalars_pair (hp h0), byteCount_cons, byteCount_cons, utf8ScalarWidth_pair (hp h),
        utf8ScalarWidth_pair (hp h0)]

theorem utf8LengthUnit_spec (length : ℕ) (pendingLead : Bool) (unit : UInt16) (rest : List UInt16) :
    length + pendingBytes pendingLead (unit :: rest) =
      (utf8LengthUnit length pendingLead unit).1 + pendingBytes (utf8LengthUnit length pendingLead unit).2 rest := by
  have h0 : isLeadSurrogate 0xD800 = true := by decide
  -- without a pending lead
  have hfree : ∀ n, n + byteCount (scalars (unit :: rest)) =
      (utf8LengthUnit n false unit).1 + pendingBytes (utf8LengthUnit n false unit).2 rest := by
    intro n
    unfold utf8LengthUnit
    cases hlead : isLeadSurrogate unit with
    | true => exact congrArg _ (byteCount_lead hlead rest)
    | false =>
      change _ = n + (if _ then 1 else if _ then 2 else 3) + byteCount (scalars rest)
      rw [scalars_of_not_lead hlead, byteCount_cons]
      have hwidth : utf8ScalarWidth (replaceLone unit) =
          if unit.toNat < 0x80 then 1 else if unit.toNat < 0x800 then 2 else 3 := by
        rw [replaceLone_not_lead hlead]
        cases ht : isTrailSurrogate unit with
        | false =>
          have := unit.toNat_lt
          rw [if_neg Bool.false_ne_true, utf8ScalarWidth]
          split_ifs <;> omega
        | true =>
          simp only [isTrailSurrogate, Bool.and_eq_true, decide_eq_true_eq] at ht
          rw [if_pos rfl, if_neg (by omega), if_neg (by omega)]
          rfl
      rw [hwidth]
      omega
  cases pendingLead with
  | false =>
    exact hfree length
  | true =>
    rw [utf8LengthUnit, pendingBytes, if_pos rfl]
    cases ht : isTrailSurrogate unit with
    | true =>
      have hp : isPair 0xD800 unit = true := by rw [isPair, ht]; rfl
      rw [if_pos (by simp), scalars_pair hp, byteCount_cons, utf8ScalarWidth_pair hp, pendingBytes,
        if_neg Bool.false_ne_true, Nat.add_assoc]
    | false =>
      rw [byteCount_lone_lead h0 (by simpa using ht), ← Nat.add_assoc]
      exact hfree (length + 3)

theorem utf8LengthSegment_spec (state : ℕ × Bool) (segment : Segment) (hne : segment.units ≠ []) (rest : List UInt16) :
    state.1 + pendingBytes state.2 (segment.units ++ rest) =
      (utf8LengthSegment state segment).1 + pendingBytes (utf8LengthSegment state segment).2 rest := by
  cases segment with
  | utf16 units =>
    rw [Segment.units, utf8LengthSegment]
    clear hne
    induction units generalizing state with
    | nil => rfl
    | cons unit units ih => rw [cons_append, utf8LengthUnit_spec, foldl_cons, ← ih]
  | latin1 units =>
    rw [Segment.units, utf8LengthSegment]
    have hrun : ∀ (units : List UInt8) (n : ℕ), n + byteCount (scalars (units.map UInt8.toUInt16 ++ rest)) =
        units.foldl (fun length unit => length + (unit.toNat >>> 7)) (n + units.length) + byteCount (scalars rest) := by
      intro units
      induction units with
      | nil => exact fun n => rfl
      | cons unit units ih =>
        intro n
        have hwidth : utf8ScalarWidth unit.toNat = 1 + (unit.toNat >>> 7) := by
          have := unit.toNat_lt
          rw [utf8ScalarWidth]
          split_ifs <;> omega
        rw [map_cons, cons_append, scalars_of_not_lead (not_lead_of_latin1 unit), byteCount_cons,
          replaceLone_latin1, hwidth, foldl_cons, length_cons]
        have := ih (n + (1 + (unit.toNat >>> 7)))
        rw [← Nat.add_assoc, this]
        congr 2
        omega
    cases hpend : state.2 with
    | false => exact hrun units state.1
    | true =>
      obtain ⟨unit, units, rfl⟩ := exists_cons_of_ne_nil fun h : units = [] => hne (by rw [h]; rfl)
      rw [pendingBytes, if_pos rfl, byteCount_lone_lead (by decide) (by simpa using not_trail_of_latin1 unit), ← Nat.add_assoc]
      exact hrun (unit :: units) (state.1 + 3)

theorem stringUtf8Length_eq (s : Segmentation) : stringUtf8Length s = byteCount (scalars s.flat) := by
  have hfold : ∀ (segments : List Segment) (state : ℕ × Bool), Leaves segments →
      state.1 + pendingBytes state.2 (flatUnits segments) =
        (segments.foldl utf8LengthSegment state).1 + pendingBytes (segments.foldl utf8LengthSegment state).2 [] := by
    intro segments
    induction segments with
    | nil => exact fun _ _ => rfl
    | cons segment segments ih =>
      intro state hne
      rw [flatUnits_cons, utf8LengthSegment_spec state segment (hne segment (mem_cons_self ..)), foldl_cons,
        ih _ fun s hs => hne s (mem_cons_of_mem _ hs)]
  have h := hfold s.segments (0, false) s.nonempty
  rw [Nat.zero_add, pendingBytes, if_neg Bool.false_ne_true] at h
  unfold stringUtf8Length
  rw [Segmentation.flat, h]
  rcases s.segments.foldl utf8LengthSegment (0, false) with ⟨length, pendingLead⟩
  cases pendingLead <;> rfl

end Maligator.Text
