/-
The cursor of the JSON parser and `mal_json_parse_string`.

The text is a string seen as its leaves; the cursor keeps the current leaf, where it starts and what the iterator has
still to give. A position is looked up in the current leaf first; `seekSlow` walks on to a later leaf, and for a position
behind the current leaf starts the iterator anew. A string token inside one leaf is borrowed as a slice of that leaf's
string; any other is copied, run by run, with its escapes decoded.

`At source depth p text`: the cursor is sound and `text` is what it has still to read.
`parseString_reads`: from any such cursor, whatever the leaves, the result is the one `readString` reads off `text`.
-/
import Maligator.Json.Quote

namespace Maligator.Json

open Swar Text List

/-! ## Text -/

/-- a piece of a leaf: MalStringIteratorPart once it has come down to a leaf -/
structure Part where
  leaf : Segment
  offset : ℕ
  length : ℕ
  inside : offset + length ≤ leaf.length
  nonempty : 0 < length

def Part.segment (part : Part) : Segment := (part.leaf.drop part.offset).take part.length

def dropParts : ℕ → List Part → List Part
  | _, [] => []
  | n, part :: parts =>
    if h : n < part.length then
      ⟨part.leaf, part.offset + n, part.length - n, by have := part.inside; omega, by omega⟩ :: parts
    else dropParts (n - part.length) parts

def partsUnits (parts : List Part) : List UInt16 := parts.flatMap fun part => part.segment.units

/-- the string that is parsed: its leaves in order, within the engine's limit as every string -/
structure JsonText where
  parts : List Part
  fits : (partsUnits parts).length ≤ stringMaxCodeUnits

def JsonText.flat (source : JsonText) : List UInt16 := partsUnits source.parts

/-- MalJsonParser, without the tree a reviver asks for -/
structure MalJsonParser where
  source : JsonText
  segment : Segment
  segmentStart : ℕ
  /-- iterator.current: none while the whole string is one leaf and the iterator was never started -/
  current : Option Part
  /-- what the iterator has still to give -/
  pending : List Part
  length : ℕ
  position : ℕ
  depth : ℕ

/-! ## The cursor -/

section

variable (p : MalJsonParser)

def parserInit (source : JsonText) : MalJsonParser :=
  let p : MalJsonParser := ⟨source, .latin1 [], 0, none, [], source.flat.length, 0, 0⟩
  match source.parts with
  | [] => p
  | [whole] => { p with segment := whole.segment }
  | part :: parts => { p with segment := part.segment, current := some part, pending := parts }

/-- mal_string_iterator_next into the parser's segment; an exhausted iterator leaves it -/
def MalJsonParser.nextSegment : MalJsonParser :=
  match p.pending with
  | [] => p
  | part :: parts => { p with segment := part.segment, current := some part, pending := parts }

/-- the forward loop of mal_json_parser_unit_slow; a round takes a leaf from the iterator -/
def seekForward (position : ℕ) : ℕ → MalJsonParser → MalJsonParser
  | 0, p => p
  | fuel + 1, p =>
    if position - p.segmentStart ≥ p.segment.length then
      seekForward position fuel ({ p with segmentStart := p.segmentStart + p.segment.length }).nextSegment
    else p

/-- mal_json_parser_unit_slow, but for the unit it returns -/
def seekSlow (position : ℕ) : MalJsonParser :=
  let p := if position < p.segmentStart then
      ({ p with pending := dropParts position p.source.parts, segmentStart := position }).nextSegment
    else p
  seekForward position p.pending.length p

/-- the offset of a position is inside the current leaf; the machine's difference wraps when the position is behind it -/
def inSegment (position : ℕ) : Bool :=
  p.segmentStart ≤ position && position - p.segmentStart < p.segment.length

def seek (position : ℕ) : MalJsonParser := if inSegment p position then p else seekSlow p position

def parserUnit (position : ℕ) : MalJsonParser × UInt16 :=
  let p := seek p position
  (p, p.segment.codeUnitAt (position - p.segmentStart))

def MalJsonParser.advance (n : ℕ) : MalJsonParser := { p with position := p.position + n }

/-- mal_json_parser_unit at position++ -/
def nextUnit : MalJsonParser × UInt16 :=
  let (p, unit) := parserUnit p p.position
  (p.advance 1, unit)

/-! ## Strings -/

def plainRun : Segment → ℕ
  | .latin1 units => latin1SafeRun units
  | .utf16 units => utf16UnescapedRun units

def pushRun (b : MalTextBuffer) (segment : Segment) (run : ℕ) : Except JsonError MalTextBuffer :=
  if run ≠ 0 then builderPushSegment b (segment.take run) else .ok b

/-- mal_json_parser_unescaped_run; a round that goes on takes a unit -/
def unescapedRun : ℕ → MalJsonParser → MalTextBuffer → Except JsonError (MalJsonParser × MalTextBuffer)
  | 0, p, b => .ok (p, b)
  | fuel + 1, p, b =>
    if p.position < p.length then do
      let p := seek p p.position
      let rest := p.segment.drop (p.position - p.segmentStart)
      let run := plainRun rest
      let b ← pushRun b rest run
      if run < rest.length then .ok (p.advance run, b) else unescapedRun fuel (p.advance run) b
    else .ok (p, b)

def hexValue (digit : UInt16) : Option UInt16 :=
  if 0x30 ≤ digit.toNat && digit.toNat ≤ 0x39 then some (digit - 0x30)
  else if 0x61 ≤ digit.toNat && digit.toNat ≤ 0x66 then some (digit - 0x61 + 10)
  else if 0x41 ≤ digit.toNat && digit.toNat ≤ 0x46 then some (digit - 0x41 + 10)
  else none

def hexLoop : ℕ → MalJsonParser → UInt16 → Except JsonError (UInt16 × MalJsonParser)
  | 0, p, value => .ok (value, p)
  | n + 1, p, value =>
    let (p, digit) := nextUnit p
    match hexValue digit with
    | some d => hexLoop n p ((value <<< 4) + d)
    | none => .error .unexpectedToken

def simpleEscape (escape : UInt16) : Option UInt16 :=
  if escape.toNat = 0x22 || escape.toNat = 0x5C || escape.toNat = 0x2F then some escape
  else if escape.toNat = 0x62 then some 0x08
  else if escape.toNat = 0x66 then some 0x0C
  else if escape.toNat = 0x6E then some 0x0A
  else if escape.toNat = 0x72 then some 0x0D
  else if escape.toNat = 0x74 then some 0x09
  else none

def decodeEscape (escape : UInt16) : Except JsonError (UInt16 × MalJsonParser) :=
  match simpleEscape escape with
  | some unit => .ok (unit, p)
  | none =>
    if escape.toNat = 0x75 then
      if p.position + 4 > p.length then .error .unexpectedToken else hexLoop 4 p 0
    else .error .unexpectedToken

/-- the second loop of mal_json_parse_string; each round takes an escape -/
def parseStringLoop : ℕ → MalJsonParser → MalTextBuffer → Except JsonError (List UInt16 × MalJsonParser)
  | 0, _, _ => .error .unexpectedToken
  | fuel + 1, p, b =>
    if p.position < p.length then do
      let (p, b) ← unescapedRun (p.length - p.position) p b
      if p.position = p.length then .error .unexpectedToken
      else
        let (p, unit) := nextUnit p
        if unit.toNat = 0x22 then .ok (b.units, p)
        else if unit.toNat < 0x20 then .error .unexpectedToken
        else if p.position ≥ p.length then .error .unexpectedToken
        else do
          let (p, escape) := nextUnit p
          let (value, p) ← decodeEscape p escape
          let b ← builderPush b value
          parseStringLoop fuel p b
    else .error .unexpectedToken

def sliceUnits (owner : List UInt16) (offset length : ℕ) : List UInt16 := (owner.drop offset).take length

/-- a token that ends inside the current leaf: a slice of the leaf's string, or of the source when it is one leaf -/
def borrowToken (start offset run : ℕ) : List UInt16 :=
  match p.current with
  | some part => sliceUnits part.leaf.units (part.offset + offset) run
  | none => sliceUnits p.source.flat start run

/-- mal_json_parse_string: the loop over whole leaves, then the general loop; a round that goes on takes a unit -/
def parseStringFrom (start : ℕ) : ℕ → MalJsonParser → MalTextBuffer → Except JsonError (List UInt16 × MalJsonParser)
  | 0, p, b => parseStringLoop (p.length - p.position + 1) p b
  | fuel + 1, p, b =>
    if p.position < p.length then
      let p := seek p p.position
      let offset := p.position - p.segmentStart
      let rest := p.segment.drop offset
      let run := plainRun rest
      if run < rest.length && b.length = 0 && (p.segment.codeUnitAt (offset + run)).toNat = 0x22 then
        .ok (borrowToken p start offset run, p.advance (run + 1))
      else do
        let b ← pushRun b rest run
        if run < rest.length then parseStringLoop (p.length - p.position + 1) (p.advance run) b
        else parseStringFrom start fuel (p.advance run) b
    else parseStringLoop (p.length - p.position + 1) p b

def parseString : Except JsonError (List UInt16 × MalJsonParser) :=
  parseStringFrom p.position (p.length - p.position) p .empty

end

/-! ## The cursor is sound -/

@[simp] theorem partsUnits_cons (part : Part) (parts : List Part) :
    partsUnits (part :: parts) = part.segment.units ++ partsUnits parts := flatMap_cons

theorem Part.segment_length (part : Part) : part.segment.units.length = part.length := by
  have h := part.inside
  rw [Segment.length] at h
  rw [Part.segment, Segment.units_take, Segment.units_drop, length_take, length_drop]
  omega

theorem partsUnits_dropParts (parts : List Part) (n : ℕ) :
    partsUnits (dropParts n parts) = (partsUnits parts).drop n := by
  induction parts generalizing n with
  | nil => simp [dropParts, partsUnits]
  | cons part parts ih =>
    have hlen := part.segment_length
    rw [dropParts, partsUnits_cons]
    split_ifs with h
    · rw [partsUnits_cons, drop_append_of_le_length (by omega)]
      congr 1
      rw [Part.segment, Part.segment, Segment.units_take, Segment.units_drop, Segment.units_take, Segment.units_drop,
        drop_take, drop_drop]
    · rw [ih, drop_append, drop_eq_nil_of_le (by omega : part.segment.units.length ≤ n), nil_append, hlen]

/-- the current leaf is where the cursor says it is, and the iterator goes on right behind it -/
structure Sound (source : JsonText) (p : MalJsonParser) : Prop where
  source_eq : p.source = source
  length_eq : p.length = source.flat.length
  leaf : ∃ before, source.flat = before ++ (p.segment.units ++ partsUnits p.pending) ∧ before.length = p.segmentStart
  owner : match p.current with
    | some part => p.segment = part.segment
    | none => p.segmentStart = 0 ∧ p.pending = []

/-- where the cursor is and how deep, which a look at a unit leaves alone -/
structure SamePlace (p p' : MalJsonParser) : Prop where
  position : p'.position = p.position
  depth : p'.depth = p.depth

theorem SamePlace.refl (p : MalJsonParser) : SamePlace p p := ⟨rfl, rfl⟩

theorem SamePlace.trans {p q r : MalJsonParser} (h : SamePlace p q) (h' : SamePlace q r) : SamePlace p r :=
  ⟨h'.position.trans h.position, h'.depth.trans h.depth⟩

theorem nextSegment_samePlace (p : MalJsonParser) : SamePlace p p.nextSegment := by
  unfold MalJsonParser.nextSegment
  split <;> exact ⟨rfl, rfl⟩

theorem nextSegment_sound {p : MalJsonParser} {source : JsonText} {before : List UInt16} (hsource : p.source = source)
    (hlength : p.length = source.flat.length) (hflat : source.flat = before ++ partsUnits p.pending)
    (hstart : before.length = p.segmentStart) (hlt : p.segmentStart < source.flat.length) :
    Sound source p.nextSegment ∧ p.nextSegment.segmentStart = p.segmentStart ∧
      p.nextSegment.pending.length + 1 = p.pending.length := by
  unfold MalJsonParser.nextSegment
  split
  · next hnil =>
    rw [hflat, hnil, length_append, hstart] at hlt
    exact absurd hlt (by simp [partsUnits])
  · next part parts hcons =>
    rw [hcons] at hflat
    exact ⟨⟨hsource, hlength, ⟨before, hflat, hstart⟩, rfl⟩, rfl, by rw [hcons, length_cons]⟩

theorem seekForward_spec {source : JsonText} {position : ℕ} (hpos : position < source.flat.length) : ∀ (fuel : ℕ)
    (p : MalJsonParser), Sound source p → p.segmentStart ≤ position → p.pending.length ≤ fuel →
      Sound source (seekForward position fuel p) ∧ inSegment (seekForward position fuel p) position = true ∧
        SamePlace p (seekForward position fuel p) := by
  have hstop : ∀ p : MalJsonParser, p.segmentStart ≤ position → ¬position - p.segmentStart ≥ p.segment.length →
      inSegment p position = true := by
    intro p hle hlt
    rw [inSegment, Bool.and_eq_true, decide_eq_true_eq, decide_eq_true_eq]
    exact ⟨hle, not_le.1 hlt⟩
  intro fuel
  induction fuel with
  | zero =>
    intro p hp hle hfuel
    obtain ⟨before, hflat, hstart⟩ := hp.leaf
    have hnil : p.pending = [] := length_eq_zero_iff.1 (Nat.le_zero.1 hfuel)
    have hlen := congrArg List.length hflat
    rw [hnil, length_append, length_append] at hlen
    refine ⟨hp, hstop p hle ?_, SamePlace.refl p⟩
    rw [Segment.length]
    simp only [partsUnits, flatMap_nil, length_nil] at hlen
    omega
  | succ fuel ih =>
    intro p hp hle hfuel
    rw [seekForward]
    split_ifs with hge
    · obtain ⟨before, hflat, hstart⟩ := hp.leaf
      have hflat' : source.flat = before ++ p.segment.units ++ partsUnits p.pending := by rw [hflat, append_assoc]
      have hstart' : (before ++ p.segment.units).length = p.segmentStart + p.segment.length := by
        rw [length_append, hstart, Segment.length]
      have hnext := nextSegment_sound (p := { p with segmentStart := p.segmentStart + p.segment.length }) hp.source_eq
        hp.length_eq hflat' hstart' (show p.segmentStart + p.segment.length < _ by omega)
      obtain ⟨hsound, hseg, hpend⟩ := hnext
      have hpend' : _ + 1 = p.pending.length := hpend
      have hih := ih _ hsound (by rw [hseg]; exact (by omega : p.segmentStart + p.segment.length ≤ position)) (by omega)
      have hplace := nextSegment_samePlace { p with segmentStart := p.segmentStart + p.segment.length }
      exact ⟨hih.1, hih.2.1, SamePlace.trans ⟨hplace.position, hplace.depth⟩ hih.2.2⟩
    · exact ⟨hp, hstop p hle hge, SamePlace.refl p⟩

theorem seek_spec {p : MalJsonParser} {source : JsonText} {position : ℕ} (hp : Sound source p)
    (hpos : position < source.flat.length) :
    Sound source (seek p position) ∧ inSegment (seek p position) position = true ∧ SamePlace p (seek p position) := by
  rw [seek]
  split_ifs with hin
  · exact ⟨hp, hin, SamePlace.refl p⟩
  rw [seekSlow]
  split_ifs with hbehind
  · have hflat : source.flat = source.flat.take position ++ partsUnits (dropParts position p.source.parts) := by
      rw [partsUnits_dropParts, hp.source_eq, ← JsonText.flat, take_append_drop]
    have hstart : (source.flat.take position).length = position := by rw [length_take]; omega
    obtain ⟨hsound, hseg, -⟩ := nextSegment_sound
      (p := { p with pending := dropParts position p.source.parts, segmentStart := position }) hp.source_eq hp.length_eq
      hflat hstart hpos
    have h := seekForward_spec hpos _ _ hsound (by rw [hseg]) le_rfl
    have hplace := nextSegment_samePlace { p with pending := dropParts position p.source.parts, segmentStart := position }
    exact ⟨h.1, h.2.1, SamePlace.trans ⟨hplace.position, hplace.depth⟩ h.2.2⟩
  · exact seekForward_spec hpos _ p hp (not_lt.1 hbehind) le_rfl

theorem Sound.drop {p : MalJsonParser} {source : JsonText} {position : ℕ} (hp : Sound source p)
    (hin : inSegment p position = true) :
    source.flat.drop position = p.segment.units.drop (position - p.segmentStart) ++ partsUnits p.pending ∧
      position - p.segmentStart < p.segment.units.length := by
  rw [inSegment, Bool.and_eq_true, decide_eq_true_eq, decide_eq_true_eq] at hin
  obtain ⟨before, hflat, hstart⟩ := hp.leaf
  refine ⟨?_, hin.2⟩
  rw [hflat, drop_append, drop_eq_nil_of_le (by omega), nil_append, hstart, drop_append_of_le_length hin.2.le]

structure At (source : JsonText) (depth : ℕ) (p : MalJsonParser) (text : List UInt16) : Prop where
  sound : Sound source p
  depth_eq : p.depth = depth
  reach : p.position + text.length = source.flat.length
  text_eq : source.flat.drop p.position = text

section At

variable {source : JsonText} {depth : ℕ} {p : MalJsonParser} {text : List UInt16}

theorem at_init (source : JsonText) : At source 0 (parserInit source) source.flat := by
  have hsound : Sound source (parserInit source) := by
    unfold parserInit
    split
    · next hnil => exact ⟨rfl, rfl, ⟨[], by rw [JsonText.flat, hnil]; rfl, rfl⟩, rfl, rfl⟩
    · next whole hone => exact ⟨rfl, rfl, ⟨[], by rw [JsonText.flat, hone, partsUnits_cons]; rfl, rfl⟩, rfl, rfl⟩
    · next part parts hne hcons =>
      exact ⟨rfl, rfl, ⟨[], by rw [JsonText.flat, hcons, partsUnits_cons]; rfl, rfl⟩, rfl⟩
  have hplace : (parserInit source).position = 0 ∧ (parserInit source).depth = 0 := by
    unfold parserInit
    split <;> exact ⟨rfl, rfl⟩
  exact ⟨hsound, hplace.2, by rw [hplace.1, Nat.zero_add], by rw [hplace.1, drop_zero]⟩

section

variable (h : At source depth p text)
include h

theorem At.length_sub : p.length - p.position = text.length := by
  have := h.reach
  rw [h.sound.length_eq]
  omega

theorem At.lt_length_iff : p.position < p.length ↔ text ≠ [] := by
  have := h.reach
  rw [h.sound.length_eq, ← length_pos_iff]
  omega

theorem At.samePlace {p' : MalJsonParser} (hp : Sound source p') (hs : SamePlace p p') : At source depth p' text :=
  ⟨hp, hs.depth.trans h.depth_eq, by rw [hs.position, h.reach], by rw [hs.position, h.text_eq]⟩

theorem At.advance {n : ℕ} (hn : n ≤ text.length) : At source depth (p.advance n) (text.drop n) := by
  have := h.reach
  refine ⟨⟨h.sound.source_eq, h.sound.length_eq, h.sound.leaf, h.sound.owner⟩, h.depth_eq, ?_, ?_⟩
  · rw [length_drop]
    change p.position + n + _ = _
    omega
  · rw [← h.text_eq, drop_drop]
    rfl

theorem At.seek (hne : text ≠ []) : At source depth (seek p p.position) text ∧ ∃ more, text =
      (seek p p.position).segment.units.drop ((seek p p.position).position - (seek p p.position).segmentStart) ++ more ∧
      (seek p p.position).position - (seek p p.position).segmentStart < (seek p p.position).segment.units.length := by
  have hpos : p.position < source.flat.length := by
    have := length_pos_iff.2 hne
    have := h.reach
    omega
  obtain ⟨hsound, hin, hplace⟩ := seek_spec h.sound hpos
  obtain ⟨hdrop, hlt⟩ := hsound.drop hin
  refine ⟨h.samePlace hsound hplace, partsUnits (Json.seek p p.position).pending, h.text_eq.symm.trans (hdrop.trans ?_), ?_⟩
  · rw [hplace.position]
  · rw [hplace.position]
    exact hlt

theorem parserUnit_spec {i : ℕ} (hi : i < text.length) :
    (parserUnit p (p.position + i)).2 = text.getD i 0 ∧ At source depth (parserUnit p (p.position + i)).1 text := by
  have hpos : p.position + i < source.flat.length := by
    have := h.reach
    omega
  obtain ⟨hsound, hin, hplace⟩ := seek_spec h.sound hpos
  obtain ⟨hdrop, hlt⟩ := hsound.drop hin
  refine ⟨?_, h.samePlace hsound hplace⟩
  have htext : text.drop i = (seek p (p.position + i)).segment.units.drop
      (p.position + i - (seek p (p.position + i)).segmentStart) ++ partsUnits (seek p (p.position + i)).pending := by
    rw [← hdrop, ← h.text_eq, drop_drop]
  have hhead := congrArg (fun l : List UInt16 => l.getD 0 0) htext
  simp only [getD_eq_getElem?_getD, getElem?_drop, Nat.add_zero] at hhead
  rw [getElem?_append_left (by rw [length_drop]; omega), getElem?_drop] at hhead
  rw [getD_eq_getElem?_getD, hhead]
  rfl

end

theorem nextUnit_spec {unit : UInt16} {rest : List UInt16} (h : At source depth p (unit :: rest)) :
    (nextUnit p).2 = unit ∧ At source depth (nextUnit p).1 rest := by
  have hu := parserUnit_spec h (i := 0) (by simp)
  exact ⟨hu.1, hu.2.advance (n := 1) (by simp)⟩

end At

/-! ## String tokens of a text -/

def hexUnitValue (a b c d : UInt16) : Option UInt16 := do
  let a ← hexValue a
  let b ← hexValue b
  let c ← hexValue c
  let d ← hexValue d
  return (((((a <<< 4) + b) <<< 4) + c) <<< 4) + d

def readEscape : List UInt16 → Option (UInt16 × List UInt16)
  | [] => none
  | escape :: rest =>
    match simpleEscape escape with
    | some unit => some (unit, rest)
    | none =>
      if escape.toNat = 0x75 then
        match rest with
        | a :: b :: c :: d :: rest => (hexUnitValue a b c d).map (·, rest)
        | _ => none
      else none

def prepend (front : List UInt16) (x : List UInt16 × List UInt16) : List UInt16 × List UInt16 := (front ++ x.1, x.2)

theorem prepend_comp (front more : List UInt16) : prepend front ∘ prepend more = prepend (front ++ more) := by
  funext x
  rw [Function.comp, prepend, prepend, prepend, append_assoc]

def readString : List UInt16 → Option (List UInt16 × List UInt16)
  | [] => none
  | unit :: rest =>
    if unit.toNat = 0x22 then some ([], rest)
    else if isPlain unit then (readString rest).map (prepend [unit])
    else if unit.toNat = 0x5C then
      match rest with
      | [] => none
      | escape :: rest =>
        match simpleEscape escape with
        | some unit => (readString rest).map (prepend [unit])
        | none =>
          if escape.toNat = 0x75 then
            match rest with
            | a :: b :: c :: d :: rest =>
              match hexUnitValue a b c d with
              | some unit => (readString rest).map (prepend [unit])
              | none => none
            | _ => none
          else none
    else none

theorem readString_quote (rest : List UInt16) : readString (0x22 :: rest) = some ([], rest) := by
  rw [readString.eq_def]
  dsimp only
  rw [if_pos (by rfl)]

theorem readString_plain {unit : UInt16} (h : isPlain unit = true) (rest : List UInt16) :
    readString (unit :: rest) = (readString rest).map (prepend [unit]) := by
  rw [readString.eq_def]
  dsimp only
  rw [if_neg ((isPlain_iff unit).1 h).2.1, if_pos h]

theorem readString_escape {unit : UInt16} (h : unit.toNat = 0x5C) (rest : List UInt16) : readString (unit :: rest) =
    (readEscape rest).bind fun (unit, rest) => (readString rest).map (prepend [unit]) := by
  have hplain : isPlain unit = false := by simp [isPlain, h]
  rw [readString.eq_def]
  dsimp only
  rw [if_neg (by omega), hplain, if_neg (by simp), if_pos h]
  cases rest with
  | nil => rfl
  | cons escape rest =>
    rw [readEscape.eq_def]
    dsimp only
    cases hs : simpleEscape escape with
    | some unit => rfl
    | none =>
      split_ifs with hu
      · rcases rest with _ | ⟨a, _ | ⟨b, _ | ⟨c, _ | ⟨d, rest⟩⟩⟩⟩
        rotate_right
        · dsimp only
          cases hv : hexUnitValue a b c d <;> rfl
        all_goals rfl
      · rfl

theorem readString_control {unit : UInt16} (h : unit.toNat < 0x20) (rest : List UInt16) :
    readString (unit :: rest) = none := by
  have hplain : isPlain unit = false := by
    rw [Bool.eq_false_iff, ne_eq, isPlain_iff]
    omega
  rw [readString.eq_def]
  dsimp only
  rw [if_neg (by omega), hplain, if_neg (by simp), if_neg (by omega)]

theorem readString_plain_append {run : List UInt16} (h : ∀ u ∈ run, isPlain u = true) (rest : List UInt16) :
    readString (run ++ rest) = (readString rest).map (prepend run) := by
  induction run with
  | nil => rw [nil_append, show prepend [] = id from rfl, Option.map_id, id]
  | cons u run ih =>
    rw [cons_append, readString_plain (h u (mem_cons_self ..)), ih fun v hv => h v (mem_cons_of_mem _ hv),
      Option.map_map, prepend_comp, singleton_append]

theorem readEscape_length {unit : UInt16} {text rest : List UInt16} (h : readEscape text = some (unit, rest)) :
    rest.length < text.length := by
  cases text with
  | nil => cases h
  | cons escape text =>
    rw [readEscape.eq_def] at h
    dsimp only at h
    split at h
    · cases h
      simp
    split_ifs at h
    split at h
    · obtain ⟨v, -, hv⟩ := Option.map_eq_some_iff.1 h
      cases hv
      simp only [length_cons]
      omega
    · cases h

/-! ## The loops read what the text says -/

theorem ok_bind {α β : Type} (x : α) (f : α → Except JsonError β) : (Except.ok x >>= f) = f x := rfl

/-- the outcome that a reader of the whole text foretells: its value with the cursor behind it, or a syntax error -/
def Reads {α : Type} (source : JsonText) (depth : ℕ) (r : Except JsonError (α × MalJsonParser)) :
    Option (α × List UInt16) → Prop
  | some (value, rest) => ∃ p', r = .ok (value, p') ∧ At source depth p' rest
  | none => r = .error .unexpectedToken

section Loops

variable {source : JsonText} {depth : ℕ} {p : MalJsonParser} {text : List UInt16}

theorem plainRun_eq (segment : Segment) : plainRun segment = scan isPlain segment.units := by
  cases segment with
  | latin1 units => exact latin1SafeRun_eq units
  | utf16 units => exact utf16UnescapedRun_eq units

theorem leafRun_spec {q : MalJsonParser} (h : At source depth p text) (hne : text ≠ []) (hq : q = seek p p.position)
    {rest : Segment} (hrest : rest = q.segment.drop (q.position - q.segmentStart)) :
    At source depth q text ∧ plainRun rest ≤ text.length ∧ (rest.take (plainRun rest)).units = text.take (plainRun rest) ∧
      (∀ u ∈ text.take (plainRun rest), isPlain u = true) ∧
      (plainRun rest < rest.length → ∃ u more, text.drop (plainRun rest) = u :: more ∧ isPlain u = false ∧
        q.segment.codeUnitAt (q.position - q.segmentStart + plainRun rest) = u) ∧
      (¬plainRun rest < rest.length → 0 < plainRun rest) := by
  obtain ⟨hat, more, htext, hlt⟩ := h.seek hne
  rw [← hq] at hat htext hlt
  have hunits : rest.units = q.segment.units.drop (q.position - q.segmentStart) := by rw [hrest, Segment.units_drop]
  rw [← hunits] at htext
  have hpos : 0 < rest.units.length := by rw [hunits, length_drop]; omega
  have hle : plainRun rest ≤ rest.units.length := by rw [plainRun_eq]; exact scan_le _ _
  have htake : text.take (plainRun rest) = rest.units.takeWhile isPlain := by
    rw [htext, take_append_of_le_length hle, plainRun_eq, take_scan]
  refine ⟨hat, ?_, ?_, ?_, ?_, ?_⟩
  · rw [htext, length_append]
    omega
  · rw [htake, Segment.units_take, plainRun_eq, take_scan]
  · rw [htake]
    exact fun u hu => mem_takeWhile_imp hu
  · intro hshort
    have hdrop : rest.units.drop (plainRun rest) = rest.units.dropWhile isPlain := by rw [plainRun_eq, drop_scan]
    obtain ⟨u, tail, hcons⟩ := exists_cons_of_ne_nil
      (ne_nil_of_length_pos (by rw [length_drop]; exact Nat.sub_pos_of_lt hshort) :
        rest.units.drop (plainRun rest) ≠ [])
    refine ⟨u, tail ++ more, ?_, dropWhile_head (hdrop.symm.trans hcons), ?_⟩
    · rw [htext, drop_append_of_le_length hle, hcons, cons_append]
    · have hget := congrArg (fun l : List UInt16 => l.getD 0 0) hcons
      rw [hunits] at hget
      simp only [getD_eq_getElem?_getD, getElem?_drop, Nat.add_zero] at hget
      rw [Segment.codeUnitAt, getD_eq_getElem?_getD, hget]
      rfl
  · intro hall
    exact lt_of_lt_of_le hpos (not_lt.1 hall)

theorem Emits.ok {b : MalTextBuffer} {units : List UInt16} {r : Except JsonError MalTextBuffer} (h : Emits b units r)
    (hfit : b.length + units.length ≤ stringMaxCodeUnits) :
    ∃ b', r = .ok b' ∧ b'.Ok ∧ b'.units = b.units ++ units ∧ b'.length = b.length + units.length := by
  cases r with
  | error e => exact absurd h.2 (not_lt.2 hfit)
  | ok b' => exact ⟨b', rfl, h.1, h.2, by rw [MalTextBuffer.length, h.2, length_append]; rfl⟩

theorem pushRun_spec {b : MalTextBuffer} (hb : b.Ok) {segment : Segment} {run : ℕ} {units : List UInt16}
    (hunits : (segment.take run).units = units) (hfit : b.length + units.length ≤ stringMaxCodeUnits) :
    ∃ b', pushRun b segment run = .ok b' ∧ b'.Ok ∧ b'.units = b.units ++ units ∧ b'.length = b.length + units.length := by
  subst hunits
  rw [pushRun]
  split_ifs with hrun
  · exact (builderPushSegment_emits hb _).ok hfit
  · rw [not_not.1 hrun, Segment.units_take]
    exact ⟨b, rfl, hb, (append_nil _).symm, rfl⟩

theorem unescapedRun_spec (fuel : ℕ) (p : MalJsonParser) (b : MalTextBuffer) (text : List UInt16)
    (hp : At source depth p text) (hb : b.Ok) (hfit : b.length + text.length ≤ stringMaxCodeUnits)
    (hfuel : text.length ≤ fuel) :
    ∃ p' b', unescapedRun fuel p b = .ok (p', b') ∧ At source depth p' (text.dropWhile isPlain) ∧ b'.Ok ∧
      b'.units = b.units ++ text.takeWhile isPlain := by
  induction fuel generalizing p b text with
  | zero =>
    rw [length_eq_zero_iff.1 (Nat.le_zero.1 hfuel)] at hp ⊢
    exact ⟨p, b, rfl, hp, hb, (append_nil _).symm⟩
  | succ fuel ih =>
    rw [unescapedRun]
    by_cases hne : text = []
    · subst hne
      rw [if_neg (by rw [hp.lt_length_iff]; exact not_not.2 rfl)]
      exact ⟨p, b, rfl, hp, hb, (append_nil _).symm⟩
    rw [if_pos (hp.lt_length_iff.2 hne)]
    dsimp only
    obtain ⟨hat, hle, hunits, hplain, hstop, hgo⟩ := leafRun_spec hp hne rfl rfl
    generalize seek p p.position = q at *
    generalize q.segment.drop (q.position - q.segmentStart) = rest at *
    have hsplit : text.take (plainRun rest) ++ text.drop (plainRun rest) = text := take_append_drop _ _
    have htw : text.takeWhile isPlain = text.take (plainRun rest) ++ (text.drop (plainRun rest)).takeWhile isPlain := by
      rw [← takeWhile_append_of_pos hplain, hsplit]
    have hdw : (text.take (plainRun rest) ++ text.drop (plainRun rest)).dropWhile isPlain =
        (text.drop (plainRun rest)).dropWhile isPlain := dropWhile_append_of_pos hplain
    rw [hsplit] at hdw
    have hlen : (text.take (plainRun rest)).length = plainRun rest := by rw [length_take]; omega
    obtain ⟨b', hpush, hb', hbunits, hb'len⟩ := pushRun_spec hb hunits (by omega)
    rw [hpush]
    have hadv := hat.advance hle
    split_ifs with hshort
    · obtain ⟨u, more, hdrop, hu, -⟩ := hstop hshort
      rw [htw, hdw]
      rw [hdrop] at hadv ⊢
      refine ⟨_, _, rfl, ?_, hb', ?_⟩
      · rwa [dropWhile_cons_of_neg (by rw [hu]; exact Bool.false_ne_true)]
      · rw [takeWhile_cons_of_neg (by rw [hu]; exact Bool.false_ne_true), append_nil, hbunits]
    · obtain ⟨p'', b'', hrun, hp'', hb'', hunits''⟩ := ih (q.advance (plainRun rest)) b' _ hadv hb'
        (by rw [length_drop]; omega) (by rw [length_drop]; omega)
      refine ⟨p'', b'', hrun, by rwa [hdw], hb'', ?_⟩
      rw [hunits'', hbunits, htw, append_assoc]

theorem hexLoop_step {rest : List UInt16} {digit : UInt16} (h : At source depth p (digit :: rest)) :
    ∃ p', At source depth p' rest ∧ ∀ n value, hexLoop (n + 1) p value = match hexValue digit with
      | some d => hexLoop n p' ((value <<< 4) + d)
      | none => .error .unexpectedToken := by
  obtain ⟨hunit, hat⟩ := nextUnit_spec h
  refine ⟨(nextUnit p).1, hat, fun n value => ?_⟩
  rw [hexLoop]
  dsimp only
  rw [hunit]

theorem hexLoop_reads {a b c d : UInt16} {rest : List UInt16} (h : At source depth p (a :: b :: c :: d :: rest)) :
    Reads source depth (hexLoop 4 p 0) ((hexUnitValue a b c d).map (·, rest)) := by
  obtain ⟨pa, ha, hsa⟩ := hexLoop_step h
  obtain ⟨pb, hb, hsb⟩ := hexLoop_step ha
  obtain ⟨pc, hc, hsc⟩ := hexLoop_step hb
  obtain ⟨pd, hd, hsd⟩ := hexLoop_step hc
  rw [hsa, hexUnitValue]
  rcases hexValue a with _ | va
  · rfl
  dsimp only
  rw [hsb]
  rcases hexValue b with _ | vb
  · rfl
  dsimp only
  rw [hsc]
  rcases hexValue c with _ | vc
  · rfl
  dsimp only
  rw [hsd]
  rcases hexValue d with _ | vd
  · rfl
  refine ⟨pd, ?_, hd⟩
  have hzero : (0 : UInt16) <<< 4 + va = va := by rw [show (0 : UInt16) <<< 4 = 0 from rfl, UInt16.zero_add]
  dsimp only
  rw [hexLoop, hzero]

theorem decodeEscape_reads {rest : List UInt16} (h : At source depth p rest) (escape : UInt16) :
    Reads source depth (decodeEscape p escape) (readEscape (escape :: rest)) := by
  rw [decodeEscape, readEscape.eq_def]
  dsimp only
  cases simpleEscape escape with
  | some unit => exact ⟨p, rfl, h⟩
  | none =>
    have hlen := h.reach
    rw [← h.sound.length_eq] at hlen
    split_ifs with hu hlong
    · have hshort : rest.length < 4 := by omega
      match rest, hshort with
      | [], _ | [_], _ | [_, _], _ | [_, _, _], _ => rfl
    · match rest, h with
      | [], _ | [_], _ | [_, _], _ | [_, _, _], _ => simp at hlen; omega
      | a :: b :: c :: d :: rest, h => exact hexLoop_reads h
    · rfl

theorem parseStringLoop_reads (fuel : ℕ) (p : MalJsonParser) (b : MalTextBuffer) (text : List UInt16)
    (hp : At source depth p text) (hb : b.Ok) (hfit : b.length + text.length ≤ stringMaxCodeUnits)
    (hfuel : text.length < fuel) :
    Reads source depth (parseStringLoop fuel p b) ((readString text).map (prepend b.units)) := by
  induction fuel generalizing p b text with
  | zero => cases hfuel
  | succ fuel ih =>
    rw [parseStringLoop]
    by_cases hne : text = []
    · subst hne
      rw [if_neg (by rw [hp.lt_length_iff]; exact not_not.2 rfl)]
      rfl
    rw [if_pos (hp.lt_length_iff.2 hne)]
    obtain ⟨q, b', hrun, hq, hb', hunits⟩ := unescapedRun_spec (p.length - p.position) p b text hp hb hfit hp.length_sub.ge
    rw [hrun]
    have hplain : ∀ u ∈ text.takeWhile isPlain, isPlain u = true := fun u hu => mem_takeWhile_imp hu
    have hread : readString text = (readString (text.dropWhile isPlain)).map (prepend (text.takeWhile isPlain)) := by
      rw [← readString_plain_append hplain, takeWhile_append_dropWhile]
    have hsplit := congrArg List.length (takeWhile_append_dropWhile (p := isPlain) (l := text))
    have hblen : b'.length = b.length + (text.takeWhile isPlain).length := by
      rw [MalTextBuffer.length, hunits, length_append, MalTextBuffer.length]
    rw [length_append] at hsplit
    rw [hread, Option.map_map, prepend_comp, ← hunits, ok_bind]
    dsimp only
    have hlen := hq.reach
    rw [← hq.sound.length_eq] at hlen
    cases hrest : text.dropWhile isPlain with
    | nil =>
      rw [hrest, length_nil, Nat.add_zero] at hlen
      rw [if_pos hlen]
      rfl
    | cons unit rest =>
      rw [hrest] at hq hsplit hlen
      rw [length_cons] at hsplit hlen
      rw [if_neg (by omega)]
      have hnot : isPlain unit = false := dropWhile_head hrest
      obtain ⟨hunit, hq'⟩ := nextUnit_spec hq
      rw [hunit]
      generalize (nextUnit q).1 = r at hq'
      by_cases hquote : unit.toNat = 0x22
      · rw [if_pos hquote, show unit = 0x22 from UInt16.toNat_inj.1 hquote, readString_quote]
        exact ⟨r, by rw [append_nil], hq'⟩
      rw [if_neg hquote]
      by_cases hcontrol : unit.toNat < 0x20
      · rw [if_pos hcontrol, readString_control hcontrol]
        rfl
      have hslash : unit.toNat = 0x5C := by
        by_contra hslash
        rw [(isPlain_iff unit).2 ⟨by omega, hquote, hslash⟩] at hnot
        cases hnot
      rw [if_neg hcontrol, readString_escape hslash]
      have hlen' := hq'.reach
      rw [← hq'.sound.length_eq] at hlen'
      cases rest with
      | nil =>
        rw [if_pos (by rw [length_nil] at hlen'; omega)]
        rfl
      | cons escape rest =>
        rw [length_cons] at hlen' hsplit
        rw [if_neg (by omega)]
        obtain ⟨hesc, hr'⟩ := nextUnit_spec hq'
        rw [hesc]
        have hdec := decodeEscape_reads hr' escape
        cases hre : readEscape (escape :: rest) with
        | none =>
          rw [hre] at hdec
          rw [show decodeEscape _ escape = _ from hdec]
          rfl
        | some v =>
          obtain ⟨value, tail⟩ := v
          rw [hre] at hdec
          obtain ⟨t, hdecode, ht⟩ := hdec
          rw [hdecode, ok_bind]
          have htail := readEscape_length hre
          rw [length_cons] at htail
          have hone : [value].length = 1 := rfl
          obtain ⟨b'', hpush, hb'', hunits'', hb''len⟩ := (builderPush_emits hb' value).ok (by omega)
          rw [hpush, Option.bind_some, Option.map_map, prepend_comp, ← hunits'']
          exact ih t b'' tail ht hb'' (by omega) (by omega)

theorem borrowToken_eq (h : At source depth p text) {run : ℕ}
    (hrun : ((p.segment.drop (p.position - p.segmentStart)).take run).units = text.take run)
    (hle : run ≤ (p.segment.drop (p.position - p.segmentStart)).length) :
    borrowToken p p.position (p.position - p.segmentStart) run = text.take run := by
  have howner := h.sound.owner
  unfold borrowToken
  cases hcur : p.current with
  | none =>
    rw [sliceUnits, h.sound.source_eq, h.text_eq]
  | some part =>
    rw [hcur] at howner
    dsimp only at howner ⊢
    have hlen := part.segment_length
    rw [Segment.length, howner, Segment.units_drop, length_drop, hlen] at hle
    rw [← hrun, howner, Segment.units_take, Segment.units_drop, Part.segment, Segment.units_take, Segment.units_drop,
      sliceUnits, drop_take, drop_drop, take_take, Nat.min_eq_left hle]

theorem parseStringFrom_reads {start : ℕ} (fuel : ℕ) (p : MalJsonParser) (b : MalTextBuffer) (text : List UInt16)
    (hp : At source depth p text) (hb : b.Ok) (hfit : b.length + text.length ≤ stringMaxCodeUnits)
    (hfuel : text.length ≤ fuel) (hstart : b.length = 0 → start = p.position) :
    Reads source depth (parseStringFrom start fuel p b) ((readString text).map (prepend b.units)) := by
  induction fuel generalizing p b text with
  | zero =>
    exact parseStringLoop_reads _ p b text hp hb hfit (by omega)
  | succ fuel ih =>
    rw [parseStringFrom]
    by_cases hne : text = []
    · rw [if_neg (by rw [hp.lt_length_iff]; exact not_not.2 hne), hp.length_sub]
      exact parseStringLoop_reads _ p b text hp hb hfit (by omega)
    rw [if_pos (hp.lt_length_iff.2 hne)]
    dsimp only
    obtain ⟨hat, hle, hunits, hplain, hstop, hgo⟩ := leafRun_spec hp hne rfl rfl
    have hplace : (seek p p.position).position = p.position := by
      have h1 := hat.reach
      have h2 := hp.reach
      omega
    generalize hq : seek p p.position = q at *
    generalize hrest : q.segment.drop (q.position - q.segmentStart) = rest at *
    have hread : readString text = (readString (text.drop (plainRun rest))).map (prepend (text.take (plainRun rest))) := by
      rw [← readString_plain_append hplain, take_append_drop]
    have hadv := hat.advance hle
    by_cases hborrow : (decide (plainRun rest < rest.length) && decide (b.length = 0) &&
        decide ((q.segment.codeUnitAt (q.position - q.segmentStart + plainRun rest)).toNat = 0x22)) = true
    · rw [if_pos hborrow]
      simp only [Bool.and_eq_true, decide_eq_true_eq] at hborrow
      obtain ⟨⟨hshort, hempty⟩, hquote⟩ := hborrow
      obtain ⟨u, more, hdrop, -, hu⟩ := hstop hshort
      rw [hu] at hquote
      have hnil : b.units = [] := length_eq_zero_iff.1 hempty
      rw [hread, hdrop, show u = 0x22 from UInt16.toNat_inj.1 hquote, readString_quote, hnil]
      refine ⟨q.advance (plainRun rest + 1), ?_, ?_⟩
      · rw [hstart hempty, ← hplace]
        subst hrest
        rw [borrowToken_eq hat hunits hshort.le]
        simp only [prepend, append_nil, nil_append]
      · have hmore := (hdrop ▸ hadv).advance (n := 1) (by rw [length_cons]; omega)
        exact hmore
    · have hlen : (text.take (plainRun rest)).length = plainRun rest := by rw [length_take]; omega
      obtain ⟨b', hpush, hb', hbunits, hb'len⟩ := pushRun_spec hb hunits (by omega)
      rw [hpush, hread, Option.map_map, prepend_comp, ← hbunits]
      split_ifs with hshort
      · rw [hat.length_sub]
        refine parseStringLoop_reads _ _ b' _ hadv hb' ?_ ?_ <;> rw [length_drop] <;> omega
      · refine ih _ b' _ hadv hb' ?_ ?_ (by omega) <;> rw [length_drop] <;> omega

theorem parseString_reads (h : At source depth p text) : Reads source depth (parseString p) (readString text) := by
  have hfit : MalTextBuffer.empty.length + text.length ≤ stringMaxCodeUnits := by
    have := h.reach
    have hfits := source.fits
    rw [← JsonText.flat] at hfits
    change 0 + text.length ≤ _
    omega
  have hreads := parseStringFrom_reads (p.length - p.position) p .empty text h MalTextBuffer.ok_empty hfit h.length_sub.ge
    fun _ => rfl
  rwa [show prepend MalTextBuffer.empty.units = id from rfl, Option.map_id] at hreads

end Loops

/-! ## Quoted text is read back -/

theorem hexValue_hexUnit : ∀ n < 16, hexValue (hexUnit n) = some (UInt16.ofNat n) := by decide

theorem hexUnitValue_unicodeEscape (u : UInt16) : hexUnitValue (hexUnit (u.toNat / 0x1000)) (hexUnit (u.toNat / 0x100 % 0x10))
    (hexUnit (u.toNat / 0x10 % 0x10)) (hexUnit (u.toNat % 0x10)) = some u := by
  have hlt := u.toNat_lt
  rw [hexUnitValue, hexValue_hexUnit _ (by omega), hexValue_hexUnit _ (by omega), hexValue_hexUnit _ (by omega),
    hexValue_hexUnit _ (by omega)]
  change some _ = some u
  rw [Option.some_inj, ← UInt16.toNat_inj]
  have hfour : 2 ^ (UInt16.toNat 4 % 16) = 16 := rfl
  simp only [UInt16.toNat_add, UInt16.toNat_shiftLeft, UInt16.toNat_ofNat', Nat.shiftLeft_eq, hfour]
  omega

theorem readString_quoteUnit (u : UInt16) (tail : List UInt16) :
    readString (quoteUnit u ++ tail) = (readString tail).map (prepend [u]) := by
  by_cases hsafe : isSafe u = true
  · rw [quoteUnit_of_safe hsafe, singleton_append, readString_plain]
    rw [isSafe, Bool.and_eq_true] at hsafe
    exact hsafe.1
  rw [Bool.not_eq_true] at hsafe
  cases hs : shortEscape u with
  | none =>
    rw [quoteUnit_of_long hs hsafe, unicodeEscape, cons_append, readString_escape rfl]
    have hread : readEscape ([0x75, hexUnit (u.toNat / 0x1000), hexUnit (u.toNat / 0x100 % 0x10),
        hexUnit (u.toNat / 0x10 % 0x10), hexUnit (u.toNat % 0x10)] ++ tail) = some (u, tail) := by
      change (hexUnitValue _ _ _ _).map (·, tail) = _
      rw [hexUnitValue_unicodeEscape]
      rfl
    rw [hread]
    rfl
  | some text =>
    rw [(quoteUnit_of_short hs).1]
    have hread : ∃ e, text.map UInt8.toUInt16 = [0x5C, e] ∧ simpleEscape e = some u := by
      have hinj : ∀ n : UInt16, u.toNat = n.toNat → n = u := fun n h => (UInt16.toNat_inj.1 h).symm
      unfold shortEscape at hs
      split_ifs at hs with h1 h2 h3 h4 h5 h6 h7 <;> cases hs <;> refine ⟨_, rfl, ?_⟩
      · exact congrArg some (hinj 0x22 h1)
      · exact congrArg some (hinj 0x5C h2)
      · exact congrArg some (hinj 0x08 h3)
      · exact congrArg some (hinj 0x0C h4)
      · exact congrArg some (hinj 0x0A h5)
      · exact congrArg some (hinj 0x0D h6)
      · exact congrArg some (hinj 0x09 h7)
    obtain ⟨e, htext, hesc⟩ := hread
    rw [htext, cons_append, singleton_append, readString_escape rfl, readEscape.eq_def]
    dsimp only
    rw [hesc]
    rfl

theorem isPlain_of_surrogate {u : UInt16} (h : isSurrogate u = true) : isPlain u = true := by
  simp only [isSurrogate, Bool.and_eq_true, decide_eq_true_eq] at h
  rw [isPlain_iff]
  omega

theorem readString_quoteUnits (units rest : List UInt16) :
    readString (quoteUnits units ++ 0x22 :: rest) = some (units, rest) := by
  fun_induction quoteUnits units with
  | case1 => exact readString_quote rest
  | case2 unit =>
    rw [readString_quoteUnit, readString_quote]
    rfl
  | case3 first second tail hpair ih =>
    rw [isPair, Bool.and_eq_true] at hpair
    rw [cons_append, cons_append, readString_plain, readString_plain, ih]
    · rfl
    · exact isPlain_of_surrogate (by rw [isSurrogate_iff, hpair.2, Bool.or_true])
    · exact isPlain_of_surrogate (by rw [isSurrogate_iff, hpair.1, Bool.true_or])
  | case4 first second tail hpair ih =>
    rw [append_assoc, readString_quoteUnit, ih]
    rfl

theorem Emits.total {b : MalTextBuffer} {text : List UInt16} {r : Except JsonError MalTextBuffer} (h : Emits b text r) :
    if b.length + text.length ≤ stringMaxCodeUnits then ∃ b', r = .ok b' ∧ b'.Ok ∧ b'.units = b.units ++ text
    else r = .error .stringLength := by
  split_ifs with hfit
  · obtain ⟨b', hr, hok, hunits, -⟩ := h.ok hfit
    exact ⟨b', hr, hok, hunits⟩
  cases r with
  | error e => exact congrArg _ h.1
  | ok b' =>
    have hlen := h.1.length_le
    rw [MalTextBuffer.length, h.2, length_append] at hlen
    exact absurd hlen hfit

/-- **Quoting is exact, independent of the leaves, and undone by the parser.** -/
theorem quoting_exact (s : Segmentation) : (∀ b : MalTextBuffer, b.Ok →
      if b.length + (quoteJsonString s.flat).length ≤ stringMaxCodeUnits then
        ∃ b', pushQuoted b s = .ok b' ∧ b'.Ok ∧ b'.units = b.units ++ quoteJsonString s.flat
      else pushQuoted b s = .error .stringLength) ∧
    (∀ t : Segmentation, t.flat = s.flat → ∀ b : MalTextBuffer, b.Ok →
      (pushQuoted b t).map MalTextBuffer.units = (pushQuoted b s).map MalTextBuffer.units) ∧
    ∀ (source : JsonText) (depth : ℕ) (p : MalJsonParser) (text rest : List UInt16), At source depth p text →
      0x22 :: text = quoteJsonString s.flat ++ rest →
        ∃ p', parseString p = .ok (s.flat, p') ∧ At source depth p' rest := by
  have htotal : ∀ (t : Segmentation) (b : MalTextBuffer), b.Ok → _ := fun t b hb => (pushQuoted_emits hb t).total
  refine ⟨htotal s, ?_, ?_⟩
  · intro t hflat b hb
    have hs := htotal s b hb
    have ht := htotal t b hb
    rw [hflat] at ht
    split_ifs at hs ht with hfit
    · obtain ⟨bs, hbs, -, hus⟩ := hs
      obtain ⟨bt, hbt, -, hut⟩ := ht
      rw [hbs, hbt, Except.map, Except.map, hus, hut]
    · rw [hs, ht]
  · intro source depth p text rest hp htext
    have hbody : text = quoteUnits s.flat ++ 0x22 :: rest := by
      rw [quoteJsonString, cons_append, cons_append, append_assoc] at htext
      exact (List.cons.inj htext).2
    have hreads := parseString_reads (hbody ▸ hp)
    rwa [readString_quoteUnits] at hreads

def splitPairLeaves : Segmentation := ⟨[.latin1 [0x22], .utf16 [0xD83D], .utf16 [0xDE00, 0xD800]], by decide⟩

def splitPairText : JsonText where
  parts := [⟨.latin1 [0x22, 0x5C], 0, 2, by decide, by decide⟩, ⟨.utf16 [0x22, 0xD83D], 0, 2, by decide, by decide⟩,
    ⟨.utf16 [0xDE00, 0x5C, 0x75], 0, 3, by decide, by decide⟩,
    ⟨.latin1 [0x64, 0x38, 0x30, 0x30, 0x22], 0, 5, by decide, by decide⟩]
  fits := by decide

theorem quoting_exact_split_pair :
    (∃ b', pushQuoted .empty splitPairLeaves = .ok b' ∧ b'.units = splitPairText.flat) ∧
      ∃ p', parseString ((parserInit splitPairText).advance 1) = .ok ([0x22, 0xD83D, 0xDE00, 0xD800], p') := by
  obtain ⟨hquote, -, hparse⟩ := quoting_exact splitPairLeaves
  constructor
  · obtain ⟨b', hpush, -, hunits⟩ := hquote .empty MalTextBuffer.ok_empty
    exact ⟨b', hpush, hunits⟩
  · have hat := (at_init splitPairText).advance (n := 1) (by decide)
    obtain ⟨p', hp', -⟩ := hparse splitPairText 0 _ _ [] hat (by decide)
    exact ⟨p', hp'⟩

end Maligator.Json
