/-
Texts on their way through bytes: what one component writes is what the other reads, however the bytes are cut into chunks.

A string is encoded as UTF-8 from its leaves, and its bytes come back through the streaming StringDecoder or through the
one-shot decoder (`utf8_transport`): lone surrogates have no encoding. Quoted as JSON it has none (`quoteUnits_wellFormed`),
so every string survives being quoted, encoded, sent, decoded and parsed (`json_transport`).
-/
import Maligator.Json.Reader
import Maligator.Text.StringDecoder

namespace Maligator.Transport

open Text StringDecoder Json List

/-- the results of the writes and of the end, together -/
def Streams (encoding : MalStringDecoderEncoding) (chunks : List (List UInt8)) (text : List UInt16) : Prop :=
  ∃ out pending last, writeAll encoding chunks = some (out, pending) ∧ sdEnd encoding pending [] = some (last, 0) ∧
    out ++ last = text

theorem streams_decodeAll {encoding : MalStringDecoderEncoding} {chunks : List (List UInt8)}
    (hlimit : (decodeAll encoding chunks.flatten).length ≤ stringMaxCodeUnits) :
    Streams encoding chunks (decodeAll encoding chunks.flatten) := by
  have hstart : ([] : List UInt8).length ≤ encoding.maxPending := Nat.zero_le _
  obtain ⟨out, kept, hrun, hkept, hout⟩ := writes_spec chunks [] hstart hlimit
  rw [nil_append, nil_append] at hout
  refine ⟨out, pendingPack kept, decodeAll encoding kept, hrun, ?_, hout⟩
  rw [sdEnd_spec [] hkept, append_nil]
  rw [append_nil]
  have := congrArg length hout
  rw [length_append] at this
  omega

/-! ## UTF-8 -/

/-- lone surrogates become U+FFFD -/
def toWellFormed (units : List UInt16) : List UInt16 := utf16Units ((scalars units).map Prod.fst)

theorem replaceLone_scalar (unit : UInt16) :
    IsScalar (replaceLone unit) ∧ (scalarUnits (replaceLone unit)).length = 1 := by
  cases h : isSurrogate unit with
  | false => exact ⟨(scalarUnits_replaceLone h).1, by rw [(scalarUnits_replaceLone h).2, length_singleton]⟩
  | true =>
    rw [replaceLone, h, if_pos rfl]
    exact ⟨.inr (by omega), rfl⟩

theorem scalars_scalar (units : List UInt16) :
    (∀ s ∈ (scalars units).map Prod.fst, IsScalar s) ∧ (toWellFormed units).length = units.length := by
  unfold toWellFormed
  induction units using scalars.induct with
  | case1 => exact ⟨by simp [scalars], rfl⟩
  | case2 first =>
    obtain ⟨hs, hlen⟩ := replaceLone_scalar first
    exact ⟨by simpa [scalars] using hs, by simpa [scalars, utf16Units] using hlen⟩
  | case3 first second rest hp ih =>
    have hrange := composePair_range hp
    rw [scalars_pair hp, map_cons, forall_mem_cons, utf16Units, flatMap_cons, length_append]
    refine ⟨⟨.inr (by dsimp only; omega), ih.1⟩, ?_⟩
    rw [scalarUnits, if_neg (by dsimp only; omega), emitPair_composePair hp]
    simp only [utf16Units] at ih
    simp [ih.2]
    omega
  | case4 first second rest hp ih =>
    obtain ⟨hs, hlen⟩ := replaceLone_scalar first
    rw [scalars, if_neg hp, map_cons, forall_mem_cons, utf16Units, flatMap_cons, length_append, hlen]
    refine ⟨⟨hs, ih.1⟩, ?_⟩
    simp only [utf16Units] at ih
    rw [ih.2]
    simp only [length_cons]
    omega

/-- decoding undoes encoding, up to lone surrogates -/
theorem utf8DecodeReport_encoded (s : Segmentation) :
    utf8DecodeReport (stringUtf8EncodeInto s (stringUtf8Length s)).output = (toWellFormed s.flat, false) := by
  have hbytes : (stringUtf8EncodeInto s (stringUtf8Length s)).output =
      ((scalars s.flat).map Prod.fst).flatMap utf8Bytes ++ [] := by
    rw [stringUtf8EncodeInto_eq, encodeFit_eq, stringUtf8Length_eq]
    simp only [Encoded.empty, Nat.sub_zero, fit_of_le le_rfl, nil_append, append_nil, flatMap_map]
    rfl
  rw [hbytes, utf8DecodeReport_append _ (scalars_scalar s.flat).1]
  exact Prod.ext (append_nil _) rfl

/-- **UTF-8.** The bytes of a string, in any chunks, come back as the string with its lone surrogates replaced, from the
streaming decoder and from the one-shot decoder alike; no error is reported. -/
theorem utf8_transport (s : Segmentation) (hlimit : s.flat.length ≤ stringMaxCodeUnits) (chunks : List (List UInt8))
    (hchunks : chunks.flatten = (stringUtf8EncodeInto s (stringUtf8Length s)).output) :
    Streams .utf8 chunks (toWellFormed s.flat) ∧
      (∃ string, stringFromUtf8Report chunks.flatten = ⟨some string, false, .ok⟩ ∧ string.units = toWellFormed s.flat) ∧
      (hasNoLoneSurrogate s.flat = true → toWellFormed s.flat = s.flat) := by
  have hdecode := utf8DecodeReport_encoded s
  rw [← hchunks] at hdecode
  have hall : decodeAll .utf8 chunks.flatten = toWellFormed s.flat := congrArg Prod.fst hdecode
  have hlen : (decodeAll .utf8 chunks.flatten).length ≤ stringMaxCodeUnits := by
    rwa [hall, (scalars_scalar s.flat).2]
  refine ⟨hall ▸ streams_decodeAll hlen, ?_, fun h => (scalars_wellFormed h).2⟩
  obtain ⟨string, hstring, hunits⟩ := stringFromUtf8Report_units chunks.flatten hlen
  rw [hdecode] at hstring hunits
  exact ⟨string, hstring, hunits⟩

/-- a lone lead between two bytes of a chunk boundary -/
theorem utf8_transport_lone : Streams .utf8 [[0xEF, 0xBF], [0xBD, 0x61]] [0xFFFD, 0x61] := by
  have h := (utf8_transport ⟨[.utf16 [0xD800, 0x61]], by decide⟩ (by decide) [[0xEF, 0xBF], [0xBD, 0x61]] (by decide)).1
  exact h

/-! ## JSON -/

theorem hasNoLoneSurrogate_append {run : List UInt16} (hrun : ∀ u ∈ run, isSurrogate u = false) (rest : List UInt16) :
    hasNoLoneSurrogate (run ++ rest) = hasNoLoneSurrogate rest := by
  induction run with
  | nil => rfl
  | cons u run ih =>
    obtain ⟨hu, hrun⟩ := forall_mem_cons.1 hrun
    rw [← ih hrun, cons_append]
    cases hrest : run ++ rest with
    | nil => simp [hasNoLoneSurrogate, hu]
    | cons v more =>
      have hpair : isPair u v = false := by
        rw [isSurrogate_iff, Bool.or_eq_false_iff] at hu
        rw [isPair, hu.1, Bool.false_and]
      rw [hasNoLoneSurrogate, hpair, if_neg Bool.false_ne_true, hu, Bool.not_false, Bool.true_and]

theorem isSurrogate_of_lt {u : UInt16} (h : u.toNat < 0xD800) : isSurrogate u = false := by
  simp only [isSurrogate, Bool.and_eq_false_iff, decide_eq_false_iff_not]
  omega

theorem hexUnit_plain : ∀ n < 16, isSurrogate (hexUnit n) = false := by decide

theorem quoteUnit_plain (u : UInt16) : ∀ v ∈ quoteUnit u, isSurrogate v = false := by
  have hu := u.toNat_lt
  cases hs : isSafe u with
  | true =>
    rw [quoteUnit_of_safe hs]
    simpa [isSafe] using And.right (by simpa [isSafe] using hs)
  | false =>
    cases hshort : shortEscape u with
    | some text =>
      rw [(quoteUnit_of_short hshort).1]
      simp only [mem_map]
      rintro _ ⟨b, -, rfl⟩
      have := b.toNat_lt
      exact isSurrogate_of_lt (by simp; omega)
    | none =>
      rw [quoteUnit_of_long hshort hs, unicodeEscape]
      simp only [forall_mem_cons, not_mem_nil, false_imp_iff, implies_true, and_true]
      exact ⟨by decide, by decide, hexUnit_plain _ (by omega), hexUnit_plain _ (by omega), hexUnit_plain _ (by omega),
        hexUnit_plain _ (by omega)⟩

/-- **Quoted text has no lone surrogate.** -/
theorem quoteUnits_wellFormed (units rest : List UInt16) :
    hasNoLoneSurrogate (quoteUnits units ++ rest) = hasNoLoneSurrogate rest := by
  induction units using quoteUnits.induct with
  | case1 => rfl
  | case2 unit => exact hasNoLoneSurrogate_append (quoteUnit_plain unit) rest
  | case3 first second more hp ih => rw [quoteUnits_pair hp, cons_append, cons_append, hasNoLoneSurrogate, if_pos hp, ih]
  | case4 first second more hp ih =>
    rw [quoteUnits, if_neg hp, append_assoc, hasNoLoneSurrogate_append (quoteUnit_plain first), ih]

/-- **JSON.** A string of any leaves is quoted, encoded and sent in any chunks; the decoded text, whatever its leaves are
then, is parsed as the string, lone surrogates included. -/
theorem json_transport (s : Segmentation) (hlimit : (quoteJsonString s.flat).length ≤ stringMaxCodeUnits) :
    ∃ b, pushQuoted .empty s = .ok b ∧ hasNoLoneSurrogate b.units = true ∧
      ∀ leaves : Segmentation, leaves.flat = b.units → ∀ chunks : List (List UInt8),
        chunks.flatten = (stringUtf8EncodeInto leaves (stringUtf8Length leaves)).output →
        Streams .utf8 chunks b.units ∧ ∀ source : JsonText, source.flat = b.units →
          ∃ p, parseString ((parserInit source).advance 1) = .ok (s.flat, p) ∧ At source 0 p [] := by
  have hquoted := (pushQuoted_emits MalTextBuffer.ok_empty s).total
  rw [show MalTextBuffer.empty.length = 0 from rfl, Nat.zero_add, if_pos hlimit] at hquoted
  obtain ⟨b, hpush, -, hunits⟩ := hquoted
  rw [show MalTextBuffer.empty.units = [] from rfl, nil_append] at hunits
  have hwell : hasNoLoneSurrogate b.units = true := by
    rw [hunits, quoteJsonString, cons_append, ← singleton_append,
      hasNoLoneSurrogate_append (forall_mem_singleton.2 (by decide)), quoteUnits_wellFormed]
    rfl
  refine ⟨b, hpush, hwell, fun leaves hleaves chunks hchunks => ⟨?_, fun source hsource => ?_⟩⟩
  · have hdecode := utf8DecodeReport_encoded leaves
    rw [← hchunks, toWellFormed, hleaves, (scalars_wellFormed hwell).2] at hdecode
    have hall : decodeAll .utf8 chunks.flatten = b.units := congrArg Prod.fst hdecode
    exact hall ▸ streams_decodeAll (by rwa [hall, hunits])
  · have hat := (at_init source).advance (n := 1) (by rw [hsource, hunits]; simp [quoteJsonString])
    rw [hsource, hunits, quoteJsonString, cons_append, drop_succ_cons, drop_zero] at hat
    have hreads := parseString_reads hat
    rwa [readString_quoteUnits] at hreads

/-- the quoted text in leaves of its own, which cut the pair once more -/
def sentLeaves : Segmentation :=
  ⟨[.latin1 [0x22, 0x5C, 0x22], .utf16 [0xD83D], .utf16 [0xDE00, 0x5C, 0x75, 0x64], .latin1 [0x38, 0x30, 0x30, 0x22]], by decide⟩

/-- a quote, a pair in two leaves and a lone surrogate; the second chunk starts in the middle of the pair's four bytes -/
theorem json_transport_split_pair : ∃ b, pushQuoted .empty splitPairLeaves = .ok b ∧ hasNoLoneSurrogate b.units = true ∧
    Streams .utf8 [[0x22, 0x5C, 0x22, 0xF0, 0x9F], [0x98, 0x80, 0x5C, 0x75, 0x64], [0x38, 0x30, 0x30, 0x22]] b.units ∧
    ∃ p, parseString ((parserInit splitPairText).advance 1) = .ok ([0x22, 0xD83D, 0xDE00, 0xD800], p) ∧
      At splitPairText 0 p [] := by
  obtain ⟨b, hpush, hwell, hsent⟩ := json_transport splitPairLeaves (by decide)
  have hunits : b.units = splitPairText.flat := by
    have hrun : (pushQuoted .empty splitPairLeaves).map MalTextBuffer.units = .ok splitPairText.flat := by decide
    rw [hpush] at hrun
    exact Except.ok.inj hrun
  obtain ⟨hstreams, hparse⟩ := hsent sentLeaves (by rw [hunits]; decide)
    [[0x22, 0x5C, 0x22, 0xF0, 0x9F], [0x98, 0x80, 0x5C, 0x75, 0x64], [0x38, 0x30, 0x30, 0x22]] (by decide)
  exact ⟨b, hpush, hwell, hstreams, hparse splitPairText hunits.symm⟩

end Maligator.Transport
