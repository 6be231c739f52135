/-
JSON quoting: the output builder of builtin_json.c and `mal_json_builder_push_quoted`.

The builder is a text buffer whose failures throw "Invalid string length". A string comes as its leaves, so a surrogate
pair may have its halves in two of them: the lead at the end of a leaf is held back until the next leaf shows its first
unit. `quoteJsonString` is the operation of the language standard on the whole unit sequence.

`pushQuoted_emits`: on any leaves and any builder the text written is exactly that of `quoteJsonString`; it throws
precisely when the text would pass the engine's string limit.
-/
import Maligator.Json.Scan
import Maligator.Text.TextBuffer

namespace Maligator.Json

open Swar Text List

/-- what JSON code throws: a RangeError "Invalid string length", a SyntaxError "Unexpected token in JSON" -/
inductive JsonError where
  | stringLength
  | unexpectedToken
  deriving DecidableEq, Repr

/-! ## The builder -/

section

variable (b : MalTextBuffer)

def checkStatus : Except JsonError MalTextBuffer :=
  if b.status = .ok then .ok b else .error .stringLength

def builderPush (unit : UInt16) : Except JsonError MalTextBuffer := checkStatus (b.push unit)

def builderPushAscii (text : List UInt8) : Except JsonError MalTextBuffer :=
  checkStatus (b.appendLatin1 text)

def builderPushUnits (units : List UInt16) : Except JsonError MalTextBuffer :=
  checkStatus (b.appendUnits units)

/-- mal_json_builder_push_segment, on the part of a leaf that is copied -/
def builderPushSegment : Segment → Except JsonError MalTextBuffer
  | .latin1 units => checkStatus (b.appendLatin1 units)
  | .utf16 units => checkStatus (b.appendUnits units)

def hexDigits : List UInt8 :=
  [0x30, 0x31, 0x32, 0x33, 0x34, 0x35, 0x36, 0x37, 0x38, 0x39, 0x61, 0x62, 0x63, 0x64, 0x65, 0x66]

def builderPushUnicodeEscape (unit : UInt16) : Except JsonError MalTextBuffer :=
  builderPushAscii b [0x5C, 0x75, hexDigits.getD (unit.toNat >>> 12) 0, hexDigits.getD (unit.toNat >>> 8 &&& 0xf) 0,
    hexDigits.getD (unit.toNat >>> 4 &&& 0xf) 0, hexDigits.getD (unit.toNat &&& 0xf) 0]

/-! ## Quoting -/

/-- the first seven cases of the switch: \" \\ \b \f \n \r \t -/
def shortEscape (unit : UInt16) : Option (List UInt8) :=
  if unit.toNat = 0x22 then some [0x5C, 0x22]
  else if unit.toNat = 0x5C then some [0x5C, 0x5C]
  else if unit.toNat = 0x08 then some [0x5C, 0x62]
  else if unit.toNat = 0x0C then some [0x5C, 0x66]
  else if unit.toNat = 0x0A then some [0x5C, 0x6E]
  else if unit.toNat = 0x0D then some [0x5C, 0x72]
  else if unit.toNat = 0x09 then some [0x5C, 0x74]
  else none

def safeRun : Segment → ℕ
  | .latin1 units => latin1SafeRun units
  | .utf16 units => utf16SafeRun units

/-- one unit that ended a run, with what follows it in the leaf; gives the units taken and the lead held back (0: none) -/
def quoteUnitStep (unit : UInt16) (rest : List UInt16) : Except JsonError (MalTextBuffer × ℕ × UInt16) :=
  match shortEscape unit, rest with
  | some text, _ => do return (← builderPushAscii b text, 1, 0)
  | none, [] =>
    if isLeadSurrogate unit then .ok (b, 1, unit)
    else do return (← builderPushUnicodeEscape b unit, 1, 0)
  | none, next :: _ =>
    if isLeadSurrogate unit && isTrailSurrogate next then do return (← builderPushUnits b [unit, next], 2, 0)
    else do return (← builderPushUnicodeEscape b unit, 1, 0)

def pushSafeRun (segment : Segment) (run : ℕ) : Except JsonError MalTextBuffer :=
  if run > 0 then builderPushSegment b (segment.take run) else .ok b

/-- the loop of mal_json_builder_push_quoted_segment over what is left of the leaf; each round takes a unit -/
def quoteLoop : ℕ → MalTextBuffer → Segment → UInt16 → Except JsonError (MalTextBuffer × UInt16)
  | 0, b, _, pending => .ok (b, pending)
  | fuel + 1, b, segment, pending => do
    let run := safeRun segment
    let b ← pushSafeRun b segment run
    match segment.units.drop run with
    | [] => .ok (b, pending)
    | unit :: rest =>
      let (b, taken, pending) ← quoteUnitStep b unit rest
      quoteLoop fuel b (segment.drop (run + taken)) pending

def pushQuotedSegment (segment : Segment) (pending : UInt16) : Except JsonError (MalTextBuffer × UInt16) :=
  if pending ≠ 0 then
    let first := segment.codeUnitAt 0
    if isTrailSurrogate first then do
      let b ← builderPushUnits b [pending, first]
      quoteLoop (segment.length - 1) b (segment.drop 1) 0
    else do
      let b ← builderPushUnicodeEscape b pending
      quoteLoop segment.length b segment 0
  else quoteLoop segment.length b segment pending

/-- the leaves in order, as mal_string_iterator_next gives them -/
def pushQuotedSegments (b : MalTextBuffer) (pending : UInt16) : List Segment → Except JsonError (MalTextBuffer × UInt16)
  | [] => .ok (b, pending)
  | segment :: segments => do
    let (b, pending) ← pushQuotedSegment b segment pending
    pushQuotedSegments b pending segments

/-- mal_string_try_get_segment on the whole string: it succeeds on one leaf, empty or not -/
def tryGetSegment (s : Segmentation) : Option Segment :=
  match s.segments with
  | [] => some (.latin1 [])
  | [segment] => some segment
  | _ => none

/-- all leaves; a string of one leaf is quoted without setting up the iterator -/
def pushQuotedLeaves (s : Segmentation) : Except JsonError (MalTextBuffer × UInt16) :=
  match tryGetSegment s with
  | some whole => pushQuotedSegment b whole 0
  | none => pushQuotedSegments b 0 s.segments

def pushHeld (pending : UInt16) : Except JsonError MalTextBuffer :=
  if pending ≠ 0 then builderPushUnicodeEscape b pending else .ok b

def pushQuoted (s : Segmentation) : Except JsonError MalTextBuffer :=
  let remaining := stringMaxCodeUnits - b.length
  if remaining < 2 || s.flat.length > remaining - 2 then .error .stringLength
  else do
    let b ← builderPush b 0x22
    let (b, pending) ← pushQuotedLeaves b s
    let b ← pushHeld b pending
    builderPush b 0x22

end

/-! ## QuoteJSONString -/

def hexUnit (n : ℕ) : UInt16 := UInt16.ofNat (if n < 10 then 0x30 + n else 0x61 + (n - 10))

def unicodeEscape (unit : UInt16) : List UInt16 :=
  [0x5C, 0x75, hexUnit (unit.toNat / 0x1000), hexUnit (unit.toNat / 0x100 % 0x10), hexUnit (unit.toNat / 0x10 % 0x10),
    hexUnit (unit.toNat % 0x10)]

def quoteUnit (unit : UInt16) : List UInt16 :=
  match unit.toNat with
  | 0x08 => [0x5C, 0x62]
  | 0x09 => [0x5C, 0x74]
  | 0x0A => [0x5C, 0x6E]
  | 0x0C => [0x5C, 0x66]
  | 0x0D => [0x5C, 0x72]
  | 0x22 => [0x5C, 0x22]
  | 0x5C => [0x5C, 0x5C]
  | code => if code < 0x20 || isSurrogate unit then unicodeEscape unit else [unit]

def quoteUnits : List UInt16 → List UInt16
  | [] => []
  | [unit] => quoteUnit unit
  | first :: second :: rest =>
    if isPair first second then first :: second :: quoteUnits rest else quoteUnit first ++ quoteUnits (second :: rest)

def quoteJsonString (units : List UInt16) : List UInt16 := 0x22 :: quoteUnits units ++ [0x22]

theorem quoteUnits_pair {lead trail : UInt16} (h : isPair lead trail = true) (rest : List UInt16) :
    quoteUnits (lead :: trail :: rest) = lead :: trail :: quoteUnits rest := by
  rw [quoteUnits, if_pos h]

theorem quoteUnits_cons {unit : UInt16} {rest : List UInt16} (h : ∀ second ∈ rest.head?, isPair unit second = false) :
    quoteUnits (unit :: rest) = quoteUnit unit ++ quoteUnits rest := by
  cases rest with
  | nil => rw [quoteUnits, quoteUnits, append_nil]
  | cons second rest => rw [quoteUnits, h second rfl, if_neg Bool.false_ne_true]

theorem quoteUnits_of_not_lead {unit : UInt16} (h : isLeadSurrogate unit = false) (rest : List UInt16) :
    quoteUnits (unit :: rest) = quoteUnit unit ++ quoteUnits rest :=
  quoteUnits_cons fun _ _ => by rw [isPair, h, Bool.false_and]

theorem isSafe_iff (u : UInt16) :
    isSafe u = true ↔ 0x20 ≤ u.toNat ∧ u.toNat ≠ 0x22 ∧ u.toNat ≠ 0x5C ∧ isSurrogate u = false := by
  rw [isSafe, Bool.and_eq_true, isPlain_iff, Bool.not_eq_true']
  tauto

variable {u : UInt16} {b : MalTextBuffer} {text : List UInt16}

theorem quoteUnit_of_safe (h : isSafe u = true) : quoteUnit u = [u] := by
  obtain ⟨h1, h2, h3, h4⟩ := (isSafe_iff u).1 h
  unfold quoteUnit
  split <;> first | omega | skip
  rw [if_neg (by simp [h4]; omega)]

theorem not_lead_of_safe (h : isSafe u = true) : isLeadSurrogate u = false := by
  have hs := ((isSafe_iff u).1 h).2.2.2
  rw [isSurrogate_iff, Bool.or_eq_false_iff] at hs
  exact hs.1

theorem quoteUnits_safe_append {run rest : List UInt16} (h : ∀ u ∈ run, isSafe u = true) :
    quoteUnits (run ++ rest) = run ++ quoteUnits rest := by
  induction run with
  | nil => rfl
  | cons u run ih =>
    have hu := h u (mem_cons_self ..)
    rw [cons_append, quoteUnits_of_not_lead (not_lead_of_safe hu), quoteUnit_of_safe hu,
      ih fun v hv => h v (mem_cons_of_mem _ hv), singleton_append, cons_append]

theorem not_lead_of_lt (h : u.toNat < 0xD800) : isLeadSurrogate u = false := by
  simp only [isLeadSurrogate, Bool.and_eq_false_iff, decide_eq_false_iff_not]
  omega

theorem quoteUnit_of_short {text : List UInt8} (h : shortEscape u = some text) :
    quoteUnit u = text.map UInt8.toUInt16 ∧ isLeadSurrogate u = false := by
  unfold shortEscape at h
  split_ifs at h with h1 h2 h3 h4 h5 h6 h7 <;> cases h <;> exact ⟨by simp [quoteUnit, *], not_lead_of_lt (by omega)⟩

theorem quoteUnit_of_long (h : shortEscape u = none) (hs : isSafe u = false) : quoteUnit u = unicodeEscape u := by
  have hshort : u.toNat ≠ 0x22 ∧ u.toNat ≠ 0x5C ∧ u.toNat ≠ 0x08 ∧ u.toNat ≠ 0x0C ∧ u.toNat ≠ 0x0A ∧ u.toNat ≠ 0x0D ∧
      u.toNat ≠ 0x09 := by
    unfold shortEscape at h
    split_ifs at h
    tauto
  obtain ⟨h1, h2, h3, h4, h5, h6, h7⟩ := hshort
  unfold quoteUnit
  split <;> first | omega | skip
  rw [if_pos]
  by_contra hno
  rw [Bool.or_eq_true, decide_eq_true_eq, not_or, Bool.not_eq_true] at hno
  have : isSafe u = true := (isSafe_iff u).2 ⟨by omega, h1, h2, hno.2⟩
  rw [hs] at this
  cases this

theorem quoteUnit_length_pos (u : UInt16) : 1 ≤ (quoteUnit u).length := by
  unfold quoteUnit
  split <;> first | decide | skip
  split_ifs
  · simp [unicodeEscape]
  · simp

theorem length_le_quoteUnits (units : List UInt16) : units.length ≤ (quoteUnits units).length := by
  fun_induction quoteUnits units with
  | case1 => simp
  | case2 unit => exact quoteUnit_length_pos unit
  | case3 first second rest hpair ih => simpa using ih
  | case4 first second rest hpair ih =>
    have := quoteUnit_length_pos first
    rw [length_append, length_cons]
    omega

theorem isLead_of_surrogate_lead (h : isLeadSurrogate u = true) : isSafe u = false ∧ shortEscape u = none ∧ u ≠ 0 := by
  have hs : isSurrogate u = true := by rw [isSurrogate_iff, h, Bool.true_or]
  simp only [isLeadSurrogate, Bool.and_eq_true, decide_eq_true_eq] at h
  refine ⟨by rw [isSafe, hs, Bool.not_true, Bool.and_false], ?_, ?_⟩
  · unfold shortEscape
    split_ifs <;> first | omega | rfl
  · rintro rfl
    exact absurd h.1 (by decide)

/-! ## What the builder writes -/

/-- the result of writing `text`: all of it, or an exception because it does not fit -/
def Emits (b : MalTextBuffer) (text : List UInt16) : Except JsonError MalTextBuffer → Prop
  | .ok b' => b'.Ok ∧ b'.units = b.units ++ text
  | .error e => e = .stringLength ∧ stringMaxCodeUnits < b.length + text.length

theorem emits_of_append {b' : MalTextBuffer} {wide : Bool}
    (hfit : b.length + text.length ≤ stringMaxCodeUnits → MalTextBuffer.Appended b text wide b')
    (hover : stringMaxCodeUnits < b.length + text.length → b'.status = .lengthOverflow) : Emits b text (checkStatus b') := by
  rcases Nat.lt_or_ge stringMaxCodeUnits (b.length + text.length) with h | h
  · rw [checkStatus, if_neg (by rw [hover h]; decide)]
    exact ⟨rfl, h⟩
  have ha := hfit h
  rw [checkStatus, if_pos ha.ok.status]
  exact ⟨ha.ok, ha.units⟩

theorem builderPush_emits (h : b.Ok) (unit : UInt16) : Emits b [unit] (builderPush b unit) :=
  emits_of_append (fun hle => MalTextBuffer.push_spec h unit hle) fun hgt => MalTextBuffer.push_overflow h unit hgt

theorem builderPushAscii_emits (h : b.Ok) (text : List UInt8) :
    Emits b (text.map UInt8.toUInt16) (builderPushAscii b text) :=
  emits_of_append (fun hle => MalTextBuffer.appendLatin1_spec h text (by rwa [length_map] at hle))
    fun hgt => MalTextBuffer.appendLatin1_overflow h text (by rwa [length_map] at hgt)

theorem builderPushUnits_emits (h : b.Ok) (units : List UInt16) : Emits b units (builderPushUnits b units) :=
  emits_of_append (fun hle => MalTextBuffer.appendUnits_spec h units hle)
    fun hgt => MalTextBuffer.appendUnits_overflow h units hgt

theorem builderPushSegment_emits (h : b.Ok) (segment : Segment) :
    Emits b segment.units (builderPushSegment b segment) := by
  cases segment with
  | latin1 units => exact builderPushAscii_emits h units
  | utf16 units => exact builderPushUnits_emits h units

theorem hexDigits_getD : ∀ n < 16, (hexDigits.getD n 0).toUInt16 = hexUnit n := by decide

theorem builderPushUnicodeEscape_emits (h : b.Ok) (unit : UInt16) :
    Emits b (unicodeEscape unit) (builderPushUnicodeEscape b unit) := by
  have hlt := unit.toNat_lt
  have hmask : ∀ n : ℕ, n &&& 0xf = n % 0x10 := fun n => Nat.and_two_pow_sub_one_eq_mod n 4
  have hemits := builderPushAscii_emits h [0x5C, 0x75, hexDigits.getD (unit.toNat >>> 12) 0,
    hexDigits.getD (unit.toNat >>> 8 &&& 0xf) 0, hexDigits.getD (unit.toNat >>> 4 &&& 0xf) 0, hexDigits.getD (unit.toNat &&& 0xf) 0]
  simp only [map_cons, map_nil, hmask] at hemits
  rw [hexDigits_getD _ (by omega), hexDigits_getD _ (by omega), hexDigits_getD _ (by omega), hexDigits_getD _ (by omega)] at hemits
  simpa only [builderPushUnicodeEscape, unicodeEscape, hmask, Nat.shiftRight_eq_div_pow, show UInt8.toUInt16 0x5C = 0x5C from rfl, show UInt8.toUInt16 0x75 = 0x75 from rfl] using hemits

variable {text' todo : List UInt16} {r : Except JsonError MalTextBuffer}

theorem Emits.bind
    {f : MalTextBuffer → Except JsonError MalTextBuffer} (hr : Emits b text r) (hf : ∀ b', b'.Ok → Emits b' text' (f b')) :
    Emits b (text ++ text') (r >>= f) := by
  cases r with
  | error e => exact ⟨hr.1, lt_of_lt_of_le hr.2 (by rw [length_append]; omega)⟩
  | ok b' =>
    obtain ⟨hok, hunits⟩ := hr
    have h := hf b' hok
    change Emits b (text ++ text') (f b')
    cases hfb : f b' with
    | error e =>
      rw [hfb] at h
      refine ⟨h.1, lt_of_lt_of_le h.2 ?_⟩
      rw [MalTextBuffer.length, hunits, MalTextBuffer.length, length_append, length_append]
      omega
    | ok b'' =>
      rw [hfb] at h
      exact ⟨h.1, by rw [h.2, hunits, append_assoc]⟩

def held (pending : UInt16) : List UInt16 := if pending ≠ 0 then [pending] else []

/-- the result of quoting `todo` with `later` still to come: written but for a lead held back, or it does not fit -/
def Quotes (b : MalTextBuffer) (todo later : List UInt16) : Except JsonError (MalTextBuffer × UInt16) → Prop
  | .ok (b', pending) => b'.Ok ∧ (pending ≠ 0 → isLeadSurrogate pending = true) ∧
      b'.units ++ quoteUnits (held pending ++ later) = b.units ++ quoteUnits (todo ++ later)
  | .error e => e = .stringLength ∧ stringMaxCodeUnits < b.length + (quoteUnits (todo ++ later)).length

theorem Emits.quotes {later : List UInt16}
    {f : MalTextBuffer → Except JsonError (MalTextBuffer × UInt16)} (hr : Emits b text r) (rest : List UInt16)
    (heq : quoteUnits (todo ++ later) = text ++ quoteUnits (rest ++ later))
    (hf : ∀ b', b'.Ok → Quotes b' rest later (f b')) : Quotes b todo later (r >>= f) := by
  cases r with
  | error e =>
    refine ⟨hr.1, ?_⟩
    rw [heq, length_append]
    exact lt_of_lt_of_le hr.2 (by omega)
  | ok b' =>
    obtain ⟨hok, hunits⟩ := hr
    have h := hf b' hok
    change Quotes b todo later (f b')
    cases hfb : f b' with
    | error e =>
      rw [hfb] at h
      refine ⟨h.1, lt_of_lt_of_le h.2 ?_⟩
      rw [heq, MalTextBuffer.length, hunits, MalTextBuffer.length, length_append, length_append]
      omega
    | ok p =>
      rw [hfb] at h
      refine ⟨h.1, h.2.1, h.2.2.trans ?_⟩
      rw [hunits, heq, append_assoc]

/-! ## The leaves -/

theorem isSafe_latin1 (byte : UInt8) : isSafe byte.toUInt16 = isPlain byte.toUInt16 := by
  have hs : isSurrogate byte.toUInt16 = false := by
    have := byte.toNat_lt
    simp only [isSurrogate, UInt8.toNat_toUInt16, Bool.and_eq_false_iff, decide_eq_false_iff_not]
    omega
  rw [isSafe, hs, Bool.not_false, Bool.and_true]

theorem safeRun_eq (segment : Segment) : safeRun segment = scan isSafe segment.units := by
  cases segment with
  | utf16 units => exact utf16SafeRun_eq units
  | latin1 units =>
    rw [safeRun, latin1SafeRun_eq, Segment.units, scan, scan, takeWhile_map, takeWhile_map]
    simp only [Function.comp_def, isSafe_latin1]

theorem quoteLoop_nil {segment : Segment} (h : segment.units = []) (fuel : ℕ) (b : MalTextBuffer) (pending : UInt16) :
    quoteLoop fuel b segment pending = .ok (b, pending) := by
  cases fuel with
  | zero => rfl
  | succ fuel =>
    have hrun : safeRun segment = 0 := by rw [safeRun_eq, h]; rfl
    simp only [quoteLoop, hrun, h]
    rfl

theorem dropWhile_head {p : UInt16 → Bool} {units rest : List UInt16} (h : units.dropWhile p = u :: rest) :
    p u = false := by
  have hne : units.dropWhile p ≠ [] := by rw [h]; simp
  have := head_dropWhile_not p hne
  simpa [h] using this

theorem quoteUnitStep_quotes (hb : b.Ok) {unit : UInt16} (hunit : isSafe unit = false)
    (rest later : List UInt16) {f : MalTextBuffer × ℕ × UInt16 → Except JsonError (MalTextBuffer × UInt16)}
    (hf : ∀ b' taken, b'.Ok → 0 < taken → Quotes b' ((unit :: rest).drop taken) later (f (b', taken, 0)))
    (hend : rest = [] → f (b, 1, unit) = .ok (b, unit)) :
    Quotes b (unit :: rest) later (quoteUnitStep b unit rest >>= f) := by
  cases hs : shortEscape unit with
  | some text =>
    obtain ⟨hquote, hlead⟩ := quoteUnit_of_short hs
    simp only [quoteUnitStep, hs, bind_assoc]
    refine (builderPushAscii_emits hb text).quotes _ ?_ fun b' hb' => hf b' 1 hb' Nat.one_pos
    rw [cons_append, quoteUnits_of_not_lead hlead, hquote]
    rfl
  | none =>
    have hquote := quoteUnit_of_long hs hunit
    have hescape : (∀ second ∈ (rest ++ later).head?, isPair unit second = false) →
        Quotes b (unit :: rest) later (builderPushUnicodeEscape b unit >>= fun b' => f (b', 1, 0)) := by
      intro hpair
      refine (builderPushUnicodeEscape_emits hb unit).quotes _ ?_ fun b' hb' => hf b' 1 hb' Nat.one_pos
      rw [cons_append, quoteUnits_cons hpair, hquote]
      rfl
    cases rest with
    | nil =>
      simp only [quoteUnitStep, hs]
      by_cases hlead : isLeadSurrogate unit = true
      · -- the other half may open the next leaf
        simp only [if_pos hlead]
        change Quotes b [unit] later (f (b, 1, unit))
        rw [hend rfl]
        refine ⟨hb, fun _ => hlead, ?_⟩
        rw [held, if_pos (isLead_of_surrogate_lead hlead).2.2]
      · simp only [if_neg hlead, bind_assoc]
        exact hescape fun second _ => by rw [isPair, Bool.eq_false_iff.2 hlead, Bool.false_and]
    | cons next rest =>
      simp only [quoteUnitStep, hs]
      by_cases hpair : (isLeadSurrogate unit && isTrailSurrogate next) = true
      · simp only [if_pos hpair, bind_assoc]
        refine (builderPushUnits_emits hb [unit, next]).quotes _ ?_ fun b' hb' => hf b' 2 hb' Nat.two_pos
        rw [cons_append, cons_append, quoteUnits_pair hpair]
        rfl
      simp only [if_neg hpair, bind_assoc]
      refine hescape fun second hsecond => ?_
      have : next = second := by simpa using hsecond
      rw [← this]
      exact Bool.eq_false_iff.2 hpair

theorem quoteLoop_quotes (later : List UInt16) (fuel : ℕ) (b : MalTextBuffer) (segment : Segment) (hb : b.Ok)
    (hlen : segment.length ≤ fuel) : Quotes b segment.units later (quoteLoop fuel b segment 0) := by
  induction fuel generalizing b segment with
  | zero =>
    have hnil : segment.units = [] := length_eq_zero_iff.1 (Nat.le_zero.1 hlen)
    rw [hnil]
    exact ⟨hb, absurd rfl, rfl⟩
  | succ fuel ih =>
    have hrun := safeRun_eq segment
    have hsafe : ∀ u ∈ segment.units.take (safeRun segment), isSafe u = true := by
      rw [hrun, take_scan]
      exact fun u hu => mem_takeWhile_imp hu
    have hsplit : segment.units.take (safeRun segment) ++ segment.units.drop (safeRun segment) = segment.units :=
      take_append_drop _ _
    have hpush : Emits b (segment.units.take (safeRun segment)) (pushSafeRun b segment (safeRun segment)) := by
      rw [pushSafeRun]
      split_ifs with hpos
      · simpa using builderPushSegment_emits hb (segment.take (safeRun segment))
      · rw [Nat.eq_zero_of_not_pos hpos]
        exact ⟨hb, (append_nil _).symm⟩
    refine hpush.quotes (segment.units.drop (safeRun segment)) ?_ fun b' hb' => ?_
    · rw [← quoteUnits_safe_append hsafe, ← append_assoc, hsplit]
    cases hrest : segment.units.drop (safeRun segment) with
    | nil => exact ⟨hb', absurd rfl, rfl⟩
    | cons unit rest =>
      have hlenrest := congrArg List.length hrest
      rw [length_drop, length_cons] at hlenrest
      have hseglen : segment.units.length ≤ fuel + 1 := hlen
      refine quoteUnitStep_quotes hb' ?_ rest later (fun b'' taken hb'' htaken => ?_) fun hnil => ?_
      · rw [hrun, drop_scan] at hrest
        exact dropWhile_head hrest
      · have hdrop : (segment.drop (safeRun segment + taken)).units = (unit :: rest).drop taken := by
          rw [Segment.units_drop, ← drop_drop, hrest]
        rw [← hdrop]
        refine ih b'' _ hb'' ?_
        rw [Segment.length, hdrop, length_drop, length_cons]
        omega
      · refine quoteLoop_nil ?_ _ _ _
        rw [Segment.units_drop, ← drop_drop, hrest, hnil]
        rfl

theorem pushQuotedSegment_quotes (hb : b.Ok) {segment : Segment} {pending : UInt16}
    (hne : pending ≠ 0 → segment.units ≠ []) (hlead : pending ≠ 0 → isLeadSurrogate pending = true) (later : List UInt16) :
    Quotes b (held pending ++ segment.units) later (pushQuotedSegment b segment pending) := by
  rw [pushQuotedSegment]
  split_ifs with hp
  · rw [held]
    obtain ⟨first, rest, hunits⟩ := exists_cons_of_ne_nil (hne hp)
    have hfirst : segment.codeUnitAt 0 = first := by rw [Segment.codeUnitAt, hunits]; rfl
    have hlen : segment.length = rest.length + 1 := by rw [Segment.length, hunits, length_cons]
    dsimp only
    rw [hfirst]
    split_ifs with htrail
    · refine (builderPushUnits_emits hb [pending, first]).quotes rest ?_ fun b' hb' => ?_
      · rw [hunits, singleton_append, cons_append, cons_append, quoteUnits_pair]
        · rfl
        · rw [isPair, hlead hp, htrail, Bool.and_true]
      · have hdrop : (segment.drop 1).units = rest := by rw [Segment.units_drop, hunits]; rfl
        rw [← hdrop]
        refine quoteLoop_quotes later _ b' _ hb' ?_
        rw [Segment.length, hdrop]
        omega
    · obtain ⟨hsafe, hshort, -⟩ := isLead_of_surrogate_lead (hlead hp)
      refine (builderPushUnicodeEscape_emits hb pending).quotes segment.units ?_ fun b' hb' =>
        quoteLoop_quotes later _ b' _ hb' le_rfl
      rw [singleton_append, cons_append, quoteUnits_cons, quoteUnit_of_long hshort hsafe]
      intro second hsecond
      have : first = second := by simpa [hunits] using hsecond
      rw [← this, isPair, Bool.eq_false_iff.2 htrail, Bool.and_false]
  · rw [not_not.1 hp]
    exact quoteLoop_quotes later _ b segment hb le_rfl

theorem pushQuotedSegments_quotes : ∀ (segments : List Segment), (∀ segment ∈ segments, segment.units ≠ []) →
    ∀ (b : MalTextBuffer) (pending : UInt16), b.Ok → (pending ≠ 0 → isLeadSurrogate pending = true) →
      Quotes b (held pending ++ flatUnits segments) [] (pushQuotedSegments b pending segments) := by
  intro segments
  induction segments with
  | nil =>
    intro _ b pending hb hlead
    exact ⟨hb, hlead, by rw [flatUnits_nil, append_nil, append_nil]⟩
  | cons segment segments ih =>
    intro hne b pending hb hlead
    have hstep := pushQuotedSegment_quotes hb (fun _ => hne segment (mem_cons_self ..)) hlead (flatUnits segments)
    have heq : held pending ++ flatUnits (segment :: segments) = held pending ++ segment.units ++ flatUnits segments := by
      rw [flatUnits_cons, append_assoc]
    rw [pushQuotedSegments]
    cases hr : pushQuotedSegment b segment pending with
    | error e =>
      rw [hr] at hstep
      refine ⟨hstep.1, ?_⟩
      rw [heq, append_nil]
      exact hstep.2
    | ok p =>
      obtain ⟨b', pending'⟩ := p
      rw [hr] at hstep
      obtain ⟨hb', hlead', hunits⟩ := hstep
      have hrest := ih (fun s hs => hne s (mem_cons_of_mem _ hs)) b' pending' hb' hlead'
      change Quotes b _ [] (pushQuotedSegments b' pending' segments)
      cases hr' : pushQuotedSegments b' pending' segments with
      | error e =>
        rw [hr'] at hrest
        refine ⟨hrest.1, ?_⟩
        have hlen := congrArg List.length hunits
        have hgt := hrest.2
        simp only [length_append, append_nil, heq, MalTextBuffer.length] at hlen hgt ⊢
        omega
      | ok p =>
        rw [hr'] at hrest
        obtain ⟨h1, h2, h3⟩ := hrest
        refine ⟨h1, h2, h3.trans ?_⟩
        rw [append_nil, hunits, heq, append_nil]

theorem Quotes.emits {r : Except JsonError (MalTextBuffer × UInt16)}
    {f : MalTextBuffer × UInt16 → Except JsonError MalTextBuffer} (hr : Quotes b todo [] r)
    (hf : ∀ b' pending, b'.Ok → (pending ≠ 0 → isLeadSurrogate pending = true) →
      Emits b' (quoteUnits (held pending) ++ text) (f (b', pending))) : Emits b (quoteUnits todo ++ text) (r >>= f) := by
  cases r with
  | error e =>
    have h := hr.2
    rw [append_nil] at h
    exact ⟨hr.1, lt_of_lt_of_le h (by rw [length_append]; omega)⟩
  | ok p =>
    obtain ⟨b', pending⟩ := p
    obtain ⟨hok, hlead, hunits⟩ := hr
    rw [append_nil, append_nil] at hunits
    have h := hf b' pending hok hlead
    change Emits b _ (f (b', pending))
    cases hfb : f (b', pending) with
    | error e =>
      rw [hfb] at h
      have hlen := congrArg List.length hunits
      have hgt := h.2
      refine ⟨h.1, ?_⟩
      simp only [length_append, MalTextBuffer.length] at hlen hgt ⊢
      omega
    | ok b'' =>
      rw [hfb] at h
      exact ⟨h.1, by rw [h.2, ← append_assoc, hunits, append_assoc]⟩

theorem tryGetSegment_units {s : Segmentation} {whole : Segment} (h : tryGetSegment s = some whole) :
    whole.units = s.flat := by
  rw [Segmentation.flat]
  unfold tryGetSegment at h
  split at h
  · next heq => cases h; rw [heq]; rfl
  · next heq => cases h; rw [heq, flatUnits_cons, flatUnits_nil, append_nil]
  · cases h

theorem pushQuotedLeaves_quotes (hb : b.Ok) (s : Segmentation) : Quotes b s.flat [] (pushQuotedLeaves b s) := by
  rw [pushQuotedLeaves]
  cases hwhole : tryGetSegment s with
  | none => exact pushQuotedSegments_quotes s.segments s.nonempty b 0 hb fun h => absurd rfl h
  | some whole =>
    rw [← tryGetSegment_units hwhole]
    exact pushQuotedSegment_quotes hb (absurd rfl) (absurd rfl) []

theorem pushHeld_emits (hb : b.Ok) {pending : UInt16}
    (hlead : pending ≠ 0 → isLeadSurrogate pending = true) : Emits b (quoteUnits (held pending)) (pushHeld b pending) := by
  rw [pushHeld]
  split_ifs with hp
  · obtain ⟨hsafe, hshort, -⟩ := isLead_of_surrogate_lead (hlead hp)
    rw [held, if_pos hp, quoteUnits, quoteUnit_of_long hshort hsafe]
    exact builderPushUnicodeEscape_emits hb pending
  · rw [held, if_neg hp]
    exact ⟨hb, (append_nil _).symm⟩

theorem pushQuoted_emits (hb : b.Ok) (s : Segmentation) : Emits b (quoteJsonString s.flat) (pushQuoted b s) := by
  have hge := length_le_quoteUnits s.flat
  have htotal : (quoteJsonString s.flat).length = (quoteUnits s.flat).length + 2 := by
    rw [quoteJsonString, length_append, length_cons, length_singleton]
  rw [pushQuoted]
  split_ifs with hroom
  · rw [Bool.or_eq_true, decide_eq_true_eq, decide_eq_true_eq] at hroom
    exact ⟨rfl, by omega⟩
  refine (builderPush_emits hb 0x22).bind fun opened hopened => ?_
  refine (pushQuotedLeaves_quotes hopened s).emits fun body pending hbody hlead => ?_
  exact (pushHeld_emits hbody hlead).bind fun closing hclosing => builderPush_emits hclosing 0x22

end Maligator.Json
