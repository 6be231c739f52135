/-
The StringDecoder of node:string_decoder (`node_string_decoder.c`).

A call joins the bytes it kept with the new ones, decodes a part in front and keeps the rest, three bytes at most, packed
into one word of the state. `none` is the RangeError for a result longer than a string can be. `decodeAll` is the one-shot
decoding of each encoding.

`Cuts`: where a byte sequence may be cut so that no later byte changes how the part in front is decoded.
`sdWrite_spec`: every write cuts there. `chunks_decoded`: so the results do not depend on the chunks.
-/
import Maligator.Text.Utf8String
import Maligator.Text.Base64

namespace Maligator.StringDecoder

open Text List

inductive MalStringDecoderEncoding where
  | utf8
  | utf16le
  | latin1
  | ascii
  | base64
  | base64url
  | hex
deriving DecidableEq, Repr

/-! ## The state -/

def pendingPack (bytes : List UInt8) : ℕ :=
  bytes.zipIdx.foldl (fun packed b => packed ||| b.1.toNat <<< (b.2 * 8)) (bytes.length <<< 24)

def pendingUnpack (packed : ℕ) : List UInt8 :=
  let count := packed >>> 24
  let count := if count > 3 then 0 else count
  (range count).map fun i => UInt8.ofNat (packed >>> (i * 8))

def checkedOutput (length : ℕ) : Bool := length ≤ stringMaxCodeUnits

section

variable (encoding : MalStringDecoderEncoding) (pending : ℕ) (data : List UInt8) (final : Bool)

def joinPending : List UInt8 := pendingUnpack pending ++ data

/-! ## UTF-8 -/

def utf8SequenceLength (b : ℕ) : ℤ :=
  if b ≤ 0x7f then 0
  else if b >>> 5 = 0x06 then 2
  else if b >>> 4 = 0x0e then 3
  else if b >>> 3 = 0x1e then 4
  else if b >>> 6 = 0x02 then -1
  else -2

def utf8IncompleteTail (bytes : List UInt8) : ℕ :=
  match bytes.reverse with
  | [] => 0
  | last :: before =>
    let kind := utf8SequenceLength last.toNat
    if 0 < kind then 1
    else if kind ≠ -1 then 0
    else match before with
      | [] => 0
      | second :: before =>
        let kind := utf8SequenceLength second.toNat
        if 3 ≤ kind then 2
        else if kind ≠ -1 then 0
        else match before with
          | [] => 0
          | third :: _ => if utf8SequenceLength third.toNat = 4 then 3 else 0

def decodeUtf8 : Option (List UInt16 × ℕ) :=
  let joined := joinPending pending data
  let retained := if final then 0 else utf8IncompleteTail joined
  let decodedLength := joined.length - retained
  (stringFromUtf8Report (joined.take decodedLength)).string.map fun string =>
    (string.units, if retained = 0 then 0 else pendingPack (joined.drop decodedLength))

/-! ## UTF-16LE -/

def leUnit (low high : UInt8) : UInt16 := low.toUInt16 ||| high.toUInt16 <<< 8

def leUnits : List UInt8 → List UInt16
  | low :: high :: rest => leUnit low high :: leUnits rest
  | _ => []

def utf16High : List UInt8 → Bool
  | low :: high :: _ => isLeadSurrogate (leUnit low high)
  | _ => false

def utf16Split (old joined : List UInt8) (final : Bool) : ℕ × ℕ :=
  let total := joined.length
  if final then (total - total % 2, 0)
  else if old.length = 1 ∧ total = 2 then (2, 0)
  else if 2 ≤ old.length ∧ utf16High old ∧ total < 4 then (0, total)
  else
    let forced := if 2 ≤ old.length ∧ utf16High old then 4 else 0
    let remaining := total - forced
    if remaining % 2 ≠ 0 then (total - 1, 1)
    else if 2 ≤ remaining ∧ utf16High (joined.drop (total - 2)) then (total - 2, 2)
    else (total, 0)

def decodeUtf16le : Option (List UInt16 × ℕ) :=
  let joined := joinPending pending data
  let (outputBytes, retained) := utf16Split (pendingUnpack pending) joined final
  if checkedOutput (outputBytes / 2) then
    some (leUnits (joined.take outputBytes),
      if retained = 0 then 0 else pendingPack (joined.drop (joined.length - retained)))
  else none

/-! ## Base64 -/

def base64EncodedLength (length : ℕ) (padding : Bool) : ℕ :=
  length / 3 * 4 + if length % 3 = 0 then 0 else if padding then 4 else length % 3 + 1

def base64Units (url : Bool) (bytes : List UInt8) : List UInt16 :=
  (Base64.encode (if url then .url else .standard) (!url) bytes).map UInt16.ofNat

def decodeBase64 (url : Bool) : Option (List UInt16 × ℕ) :=
  let joined := joinPending pending data
  let consumed := joined.length - joined.length % 3
  let retained := joined.length - consumed
  let inputLength := if final then joined.length else consumed
  if checkedOutput (base64EncodedLength inputLength !url) then
    some (base64Units url (joined.take inputLength),
      if !final && retained ≠ 0 then pendingPack (joined.drop consumed) else 0)
  else none

/-! ## The byte-wise encodings -/

def hexDigit (n : ℕ) : UInt16 := UInt16.ofNat (if n < 10 then 48 + n else 87 + n)

def hexEncodeByteLower (b : UInt8) : List UInt16 := [hexDigit (b.toNat >>> 4), hexDigit (b.toNat &&& 0x0f)]

def decodeStateless (encode : UInt8 → List UInt16) (width : ℕ) : Option (List UInt16 × ℕ) :=
  if checkedOutput (data.length * width) then some (data.flatMap encode, pending) else none

def latin1Unit (b : UInt8) : List UInt16 := [b.toUInt16]

def asciiUnit (b : UInt8) : List UInt16 := [(b &&& 0x7f).toUInt16]

/-! ## write and end -/

/-- the result and the state after it -/
def sdDecode : Option (List UInt16 × ℕ) :=
  match encoding with
  | .utf8 => decodeUtf8 pending data final
  | .utf16le => decodeUtf16le pending data final
  | .base64 => decodeBase64 pending data final false
  | .base64url => decodeBase64 pending data final true
  | .latin1 => decodeStateless pending data latin1Unit 1
  | .ascii => decodeStateless pending data asciiUnit 1
  | .hex => decodeStateless pending data hexEncodeByteLower 2

def sdWrite : Option (List UInt16 × ℕ) := sdDecode encoding pending data false

def sdEnd : Option (List UInt16 × ℕ) :=
  (sdDecode encoding pending data true).map fun r => (r.1, 0)

end

def writeAll (encoding : MalStringDecoderEncoding) (chunks : List (List UInt8)) : Option (List UInt16 × ℕ) :=
  chunks.foldlM (fun s data => (sdWrite encoding s.2 data).map fun r => (s.1 ++ r.1, r.2)) ([], 0)

def decodeAll : MalStringDecoderEncoding → List UInt8 → List UInt16
  | .utf8, bytes => (utf8DecodeReport bytes).1
  | .utf16le, bytes => leUnits bytes
  | .base64, bytes => base64Units false bytes
  | .base64url, bytes => base64Units true bytes
  | .latin1, bytes => bytes.flatMap latin1Unit
  | .ascii, bytes => bytes.flatMap asciiUnit
  | .hex, bytes => bytes.flatMap hexEncodeByteLower

def MalStringDecoderEncoding.maxPending : MalStringDecoderEncoding → ℕ
  | .utf8 => 3
  | .utf16le => 3
  | .base64 => 2
  | .base64url => 2
  | _ => 0

/-- nothing that follows `kept` changes how `done` is decoded -/
def Cuts (decode : List UInt8 → List UInt16) (done kept : List UInt8) : Prop :=
  ∀ later, decode (done ++ (kept ++ later)) = decode done ++ decode (kept ++ later)

variable {bytes next tail : List UInt8}

/-! ## The packed bytes -/

theorem pack_eq {n a b c : ℕ} (ha : a < 2 ^ 8) (hb : b < 2 ^ 8) (hc : c < 2 ^ 8) :
    n <<< 24 ||| a ||| b <<< 8 ||| c <<< 16 = n * 2 ^ 24 + c * 2 ^ 16 + b * 2 ^ 8 + a := by
  have horder (w x y z : ℕ) : w ||| x ||| y ||| z = w ||| z ||| y ||| x := by ac_rfl
  have h1 : n * 2 ^ 24 ||| c * 2 ^ 16 = n * 2 ^ 24 + c * 2 ^ 16 := or_eq_add 24 n (by omega) (by omega)
  have h2 : n * 2 ^ 24 + c * 2 ^ 16 ||| b * 2 ^ 8 = n * 2 ^ 24 + c * 2 ^ 16 + b * 2 ^ 8 :=
    or_eq_add 16 (n * 2 ^ 8 + c) (by omega) (by omega)
  rw [horder, Nat.shiftLeft_eq, Nat.shiftLeft_eq, Nat.shiftLeft_eq, h1, h2,
    or_eq_add 8 (n * 2 ^ 16 + c * 2 ^ 8 + b) (by omega) ha]

theorem unpack_byte {m k : ℕ} {b : UInt8} (h : m / 2 ^ k % 256 = b.toNat) : UInt8.ofNat (m >>> k) = b := by
  rw [← UInt8.ofNat_toNat (x := b)]
  exact Base64.ofNat_congr (by omega)

theorem unpack_word (count : ℕ) (h : count ≤ 3) (a b c : UInt8) :
    pendingUnpack (count <<< 24 ||| a.toNat ||| b.toNat <<< 8 ||| c.toNat <<< 16) = [a, b, c].take count := by
  have ha := a.toNat_lt
  have hb := b.toNat_lt
  have hc := c.toNat_lt
  rw [pack_eq ha hb hc]
  generalize hp : count * 2 ^ 24 + c.toNat * 2 ^ 16 + b.toNat * 2 ^ 8 + a.toNat = packed
  have hcount : packed >>> 24 = count := by rw [Nat.shiftRight_eq_div_pow]; omega
  have h0 : UInt8.ofNat (packed >>> 0) = a := unpack_byte (by omega)
  have h1 : UInt8.ofNat (packed >>> 8) = b := unpack_byte (by omega)
  have h2 : UInt8.ofNat (packed >>> 16) = c := unpack_byte (by omega)
  have hall : [a, b, c] = (range 3).map fun i => UInt8.ofNat (packed >>> (i * 8)) := by rw [← h0, ← h1, ← h2]; rfl
  rw [pendingUnpack, hcount, if_neg (by omega), hall, ← map_take, take_range, min_eq_left h]

theorem pendingUnpack_pack (h : bytes.length ≤ 3) : pendingUnpack (pendingPack bytes) = bytes := by
  rcases bytes with _ | ⟨a, _ | ⟨b, _ | ⟨c, _ | ⟨d, rest⟩⟩⟩⟩
  · rfl
  · simpa [pendingPack] using unpack_word 1 (by decide) a 0 0
  · simpa [pendingPack] using unpack_word 2 (by decide) a b 0
  · simpa [pendingPack] using unpack_word 3 (by decide) a b c
  · simp only [length_cons] at h
    omega

/-! ## Cuts of UTF-8 -/

theorem utf8SequenceLength_cont (b : UInt8) : utf8SequenceLength b.toNat = -1 ↔ 0x80 ≤ b.toNat ∧ b.toNat ≤ 0xBF := by
  simp only [utf8SequenceLength]
  split_ifs <;> simp <;> omega

theorem utf8Lead_range {b cp n lo hi : ℕ} (h : utf8Lead b = some (cp, n, lo, hi)) :
    0x80 ≤ lo ∧ hi ≤ 0xBF ∧ (1 < n → utf8SequenceLength b = n) := by
  simp only [utf8SequenceLength]
  rcases utf8Lead_cases h with ⟨-, -, rfl, rfl, rfl⟩ | ⟨h1, h2, -, rfl, rfl, rfl⟩ | ⟨h1, h2, -, rfl, rfl, rfl⟩ |
    ⟨h1, h2, -, rfl, rfl, rfl⟩
  · simp
  · refine ⟨le_rfl, le_rfl, fun _ => ?_⟩
    rw [if_neg (by omega), if_pos (by omega)]
    rfl
  · refine ⟨by split_ifs <;> decide, by split_ifs <;> decide, fun _ => ?_⟩
    rw [if_neg (by omega), if_neg (by omega), if_pos (by omega)]
    rfl
  refine ⟨by split_ifs <;> decide, by split_ifs <;> decide, fun _ => ?_⟩
  rw [if_neg (by omega), if_neg (by omega), if_neg (by omega), if_pos (by omega)]
  rfl

def IsCont (b : UInt8) : Prop := utf8SequenceLength b.toNat = -1

theorem utf8Continue_append (n lo hi cp consumed : ℕ) (rest : List UInt8) (hlo : 0x80 ≤ lo) (hhi : hi ≤ 0xBF)
    (h : (∀ c ∈ next.head?, ¬IsCont c) ∨ ¬(rest.length < n ∧ ∀ c ∈ rest, IsCont c)) :
    utf8Continue lo hi n cp consumed (rest ++ next) = utf8Continue lo hi n cp consumed rest ∧
      (utf8Continue lo hi n cp consumed rest).2.1 ≤ consumed + rest.length := by
  induction n generalizing lo hi cp consumed rest with
  | zero =>
    simp [utf8Continue]
  | succ n ih =>
    cases rest with
    | nil =>
      cases next with
      | nil => simp [utf8Continue]
      | cons c next =>
        have hc : ¬IsCont c := (h.resolve_right (by simp)) c rfl
        rw [IsCont, utf8SequenceLength_cont] at hc
        rw [nil_append, utf8Continue, utf8Continue, if_pos (by simp; omega)]
        exact ⟨rfl, le_rfl⟩
    | cons c rest =>
      rw [cons_append, utf8Continue, utf8Continue]
      split_ifs with hbad
      · simp
      simp only [Bool.or_eq_true, decide_eq_true_eq] at hbad
      have hc : IsCont c := (utf8SequenceLength_cont c).2 ⟨by omega, by omega⟩
      obtain ⟨heq, hle⟩ := ih 0x80 0xBF ((cp <<< 6) ||| (c.toNat &&& 0x3F)) (consumed + 1) rest le_rfl le_rfl
        (h.imp_right fun h hrest => h ⟨by rw [length_cons]; omega, by simpa using ⟨hc, hrest.2⟩⟩)
      exact ⟨heq, by rw [length_cons]; omega⟩

/-- bytes behind which a sequence starts afresh: no continuation byte follows, or no lead at their end waits for one -/
def Separate (bytes next : List UInt8) : Prop :=
  (∀ c ∈ next.head?, ¬IsCont c) ∨ ∀ before lead conts, bytes = before ++ lead :: conts → (∀ c ∈ conts, IsCont c) →
    utf8SequenceLength lead.toNat ≤ conts.length + 1

theorem utf8ReadScalar_append (hne : bytes ≠ []) (h : Separate bytes next) :
    utf8ReadScalar (bytes ++ next) = utf8ReadScalar bytes ∧ (utf8ReadScalar bytes).2.1 ≤ bytes.length := by
  obtain ⟨lead, rest, rfl⟩ := exists_cons_of_ne_nil hne
  rw [cons_append, utf8ReadScalar, utf8ReadScalar]
  cases hlead : utf8Lead lead.toNat with
  | none => simp
  | some r =>
    obtain ⟨cp, n, lo, hi⟩ := r
    obtain ⟨hlo, hhi, hkind⟩ := utf8Lead_range hlead
    obtain ⟨heq, hle⟩ := utf8Continue_append (n - 1) lo hi cp 1 rest hlo hhi (h.imp_right fun hclosed hshort => by
      have := hclosed [] lead rest rfl hshort.2
      omega)
    dsimp only
    exact ⟨heq, by rw [length_cons]; omega⟩

theorem closed_of_tail (h : utf8IncompleteTail bytes = 0) (before : List UInt8) (lead : UInt8) (conts : List UInt8)
    (heq : bytes = before ++ lead :: conts) (hconts : ∀ c ∈ conts, IsCont c) :
    utf8SequenceLength lead.toNat ≤ conts.length + 1 := by
  have hmax : utf8SequenceLength lead.toNat ≤ 4 := by
    unfold utf8SequenceLength
    split_ifs <;> decide
  unfold IsCont at hconts
  subst heq
  by_contra hlt
  rcases conts with _ | ⟨c, _ | ⟨d, _ | ⟨e, rest⟩⟩⟩
  · simp [utf8IncompleteTail] at h hlt
    rw [if_pos (by omega)] at h
    cases h
  · simp [utf8IncompleteTail, hconts c] at h hlt
    rw [if_pos (by omega)] at h
    cases h
  · simp [utf8IncompleteTail, hconts c, hconts d] at h hlt
    omega
  · simp only [length_cons] at hlt
    omega

theorem decode_append (next : List UInt8) (n : ℕ) (bytes : List UInt8) (hlen : bytes.length ≤ n)
    (h : Separate bytes next) :
    (utf8DecodeReport (bytes ++ next)).1 = (utf8DecodeReport bytes).1 ++ (utf8DecodeReport next).1 := by
  induction n generalizing bytes with
  | zero =>
    rw [length_eq_zero_iff.1 (Nat.le_zero.1 hlen)]
    rfl
  | succ n ih =>
    by_cases hne : bytes = []
    · rw [hne]
      rfl
    obtain ⟨heq, hle⟩ := utf8ReadScalar_append hne h
    have hpos := utf8ReadScalar_pos hne
    rw [utf8DecodeReport_read (append_ne_nil_of_left_ne_nil hne next), utf8DecodeReport_read hne, heq,
      drop_append_of_le_length hle, append_assoc]
    rw [ih _ (by rw [length_drop]; omega) (h.imp_right fun hclosed before lead conts hsplit => ?_)]
    exact hclosed (bytes.take (utf8ReadScalar bytes).2.1 ++ before) lead conts
      (by rw [append_assoc, ← hsplit, take_append_drop])

theorem utf8IncompleteTail_spec (bytes : List UInt8) : ∃ done kept, bytes = done ++ kept ∧
    kept.length = utf8IncompleteTail bytes ∧ kept.length ≤ 3 ∧ ∀ c ∈ kept.head?, ¬IsCont c := by
  have hlead {c : UInt8} (h : 0 < utf8SequenceLength c.toNat) : ¬IsCont c := fun hc => by rw [hc] at h; cases h
  have hrev := reverse_reverse bytes
  unfold utf8IncompleteTail
  generalize bytes.reverse = r at hrev
  rw [← hrev]
  have hnone : ∃ done kept, r.reverse = done ++ kept ∧ kept.length = 0 ∧ kept.length ≤ 3 ∧
      ∀ c ∈ kept.head?, ¬IsCont c := ⟨_, [], (append_nil _).symm, rfl, Nat.zero_le _, nofun⟩
  rcases r with _ | ⟨last, before⟩
  · exact hnone
  dsimp only
  split_ifs with h1 h2
  · exact ⟨before.reverse, [last], reverse_cons, rfl, by simp, fun c hc => by cases hc; exact hlead h1⟩
  · exact hnone
  rcases before with _ | ⟨second, before⟩
  · exact hnone
  dsimp only
  split_ifs with h3 h4
  · exact ⟨before.reverse, [second, last], by simp, rfl, by simp, fun c hc => by cases hc; exact hlead (by omega)⟩
  · exact hnone
  rcases before with _ | ⟨third, before⟩
  · exact hnone
  dsimp only
  split_ifs with h5
  · exact ⟨before.reverse, [third, second, last], by simp, rfl, le_rfl, fun c hc => by cases hc; exact hlead (by omega)⟩
  · exact hnone

/-! ## One call -/

def Writes (encoding : MalStringDecoderEncoding) (bytes : List UInt8) (result : Option (List UInt16 × ℕ)) : Prop :=
  ∃ done kept, bytes = done ++ kept ∧ kept.length ≤ encoding.maxPending ∧ Cuts (decodeAll encoding) done kept ∧
    ((decodeAll encoding done).length ≤ stringMaxCodeUnits → result = some (decodeAll encoding done, pendingPack kept))

variable (data : List UInt8)

theorem pack_kept {kept : List UInt8} {n : ℕ} (h : kept.length = n) :
    (if n = 0 then 0 else pendingPack kept) = pendingPack kept := by
  split_ifs with hn
  · rw [length_eq_zero_iff.1 (h.trans hn)]
    rfl
  · rfl

theorem decodeUtf8_write (htail : tail.length ≤ 3) :
    Writes .utf8 (tail ++ data) (decodeUtf8 (pendingPack tail) data false) := by
  obtain ⟨done, kept, heq, hlen, hle, hhead⟩ := utf8IncompleteTail_spec (tail ++ data)
  refine ⟨done, kept, heq, hle, fun later => decode_append _ _ done le_rfl ?_, fun hfit => ?_⟩
  · cases kept with
    | nil => exact .inr (closed_of_tail (by rw [heq, append_nil] at hlen; exact hlen.symm))
    | cons c kept => exact .inl hhead
  · obtain ⟨string, hstring, hunits⟩ := stringFromUtf8Report_units done hfit
    rw [decodeUtf8, joinPending, pendingUnpack_pack htail, if_neg Bool.false_ne_true, ← hlen, heq, length_append,
      Nat.add_sub_cancel]
    simp only [take_left, drop_left, hstring, Option.map_some, hunits, pack_kept rfl]
    rfl

theorem decodeUtf8_end (htail : tail.length ≤ 3) (hfit : (decodeAll .utf8 (tail ++ data)).length ≤ stringMaxCodeUnits) :
    decodeUtf8 (pendingPack tail) data true = some (decodeAll .utf8 (tail ++ data), 0) := by
  obtain ⟨string, hstring, hunits⟩ := stringFromUtf8Report_units _ hfit
  rw [decodeUtf8, joinPending, pendingUnpack_pack htail, if_pos rfl, Nat.sub_zero, take_length, hstring]
  exact congrArg (fun units => some (units, 0)) hunits

theorem leUnits_append : ∀ (done next : List UInt8), done.length % 2 = 0 → leUnits (done ++ next) = leUnits done ++ leUnits next
  | [], _, _ => rfl
  | low :: high :: done, next, h =>
    congrArg (leUnit low high :: ·) (leUnits_append done next (by simp only [length_cons] at h; omega))

theorem length_leUnits : ∀ bytes : List UInt8, (leUnits bytes).length = bytes.length / 2
  | [] => rfl
  | [_] => by simp [leUnits]
  | _ :: _ :: bytes => by
    simp only [leUnits, length_cons, length_leUnits bytes]
    omega

theorem utf16Split_write (old joined : List UInt8) : ∃ output retained, utf16Split old joined false = (output, retained) ∧
    output + retained = joined.length ∧ output % 2 = 0 ∧ retained ≤ 3 := by
  rw [utf16Split, if_neg Bool.false_ne_true]
  by_cases h1 : old.length = 1 ∧ joined.length = 2
  · rw [if_pos h1]
    exact ⟨_, _, rfl, h1.2.symm, rfl, by decide⟩
  rw [if_neg h1]
  by_cases h2 : 2 ≤ old.length ∧ utf16High old = true ∧ joined.length < 4
  · rw [if_pos h2]
    exact ⟨_, _, rfl, Nat.zero_add _, rfl, by omega⟩
  obtain ⟨forced, hforced, hle, heven⟩ : ∃ forced, (if 2 ≤ old.length ∧ utf16High old = true then 4 else 0) = forced ∧
      forced ≤ joined.length ∧ forced % 2 = 0 := by
    split_ifs with h
    · exact ⟨4, rfl, not_lt.1 fun hlt => h2 ⟨h.1, h.2, hlt⟩, rfl⟩
    · exact ⟨0, rfl, Nat.zero_le _, rfl⟩
  rw [hforced]
  dsimp only
  split_ifs with h3 h4
  · exact ⟨_, _, rfl, by omega, by omega, by decide⟩
  · exact ⟨_, _, rfl, by omega, by omega, by decide⟩
  · exact ⟨_, _, rfl, by omega, by omega, by decide⟩

theorem length_split {joined : List UInt8} {n : ℕ} (h : n ≤ joined.length) :
    (joined.take (joined.length - n)).length = joined.length - n ∧ (joined.drop (joined.length - n)).length = n := by
  rw [length_take, length_drop]
  omega

theorem checkedOutput_of_le {length : ℕ} (h : length ≤ stringMaxCodeUnits) : checkedOutput length = true := decide_eq_true h

theorem decodeUtf16le_write (htail : tail.length ≤ 3) :
    Writes .utf16le (tail ++ data) (decodeUtf16le (pendingPack tail) data false) := by
  obtain ⟨output, retained, hsplit, hsum, heven, hle⟩ := utf16Split_write tail (tail ++ data)
  rw [decodeUtf16le, joinPending, pendingUnpack_pack htail, hsplit]
  generalize tail ++ data = joined at hsum ⊢
  obtain rfl : output = joined.length - retained := by omega
  obtain ⟨hlen, hkept⟩ := length_split (by omega : retained ≤ joined.length)
  refine ⟨_, _, (take_append_drop (joined.length - retained) joined).symm, hkept.trans_le hle, fun later => ?_, fun hfit => ?_⟩
  · exact leUnits_append _ _ (hlen.symm ▸ heven)
  · rw [decodeAll, length_leUnits, hlen] at hfit
    dsimp only
    rw [if_pos (checkedOutput_of_le hfit), pack_kept hkept]
    rfl

theorem decodeUtf16le_end (htail : tail.length ≤ 3)
    (hfit : (decodeAll .utf16le (tail ++ data)).length ≤ stringMaxCodeUnits) :
    decodeUtf16le (pendingPack tail) data true = some (decodeAll .utf16le (tail ++ data), 0) := by
  rw [decodeAll] at hfit ⊢
  rw [decodeUtf16le, joinPending, pendingUnpack_pack htail, utf16Split, if_pos rfl]
  generalize tail ++ data = joined at hfit ⊢
  obtain ⟨hlen, hodd⟩ := length_split (Nat.mod_le joined.length 2)
  have hdrop : leUnits (joined.drop (joined.length - joined.length % 2)) = [] := by
    rw [← length_eq_zero_iff, length_leUnits]
    omega
  have happ := leUnits_append _ (joined.drop (joined.length - joined.length % 2)) (by rw [hlen]; omega)
  rw [take_append_drop, hdrop, append_nil] at happ
  rw [length_leUnits] at hfit
  dsimp only
  rw [if_pos (checkedOutput_of_le (by omega)), ← happ]
  rfl

theorem encode_append (alphabet : Base64.Alphabet) (padding : Bool) (next : List UInt8) : ∀ done : List UInt8,
    done.length % 3 = 0 →
    Base64.encode alphabet padding (done ++ next) = Base64.encode alphabet padding done ++ Base64.encode alphabet padding next
  | [], _ => rfl
  | a :: b :: c :: done, h => by
    simp only [cons_append, Base64.encode]
    rw [encode_append alphabet padding next done (by simp only [length_cons] at h; omega), append_assoc]

theorem length_encode (alphabet : Base64.Alphabet) (padding : Bool) : ∀ bytes : List UInt8,
    (Base64.encode alphabet padding bytes).length = base64EncodedLength bytes.length padding
  | [] => rfl
  | [_] => by cases padding <;> simp [Base64.encode, Base64.encodeBlock, base64EncodedLength]
  | [_, _] => by cases padding <;> simp [Base64.encode, Base64.encodeBlock, base64EncodedLength]
  | a :: b :: c :: bytes => by
    rw [Base64.encode, length_append, length_encode alphabet padding bytes]
    simp only [length_cons, base64EncodedLength, Nat.add_assoc, Nat.reduceAdd, Nat.add_mod_right, Base64.encodeBlock, length_nil]
    omega

theorem length_base64Units (url : Bool) (bytes : List UInt8) :
    (base64Units url bytes).length = base64EncodedLength bytes.length !url := by
  rw [base64Units, length_map, length_encode]

section Base64

variable {encoding : MalStringDecoderEncoding} {url : Bool} (hunits : decodeAll encoding = base64Units url)
  (htail : tail.length ≤ 2)
include hunits htail

theorem decodeBase64_write (hmax : encoding.maxPending = 2) :
    Writes encoding (tail ++ data) (decodeBase64 (pendingPack tail) data false url) := by
  rw [decodeBase64, joinPending, pendingUnpack_pack (by omega), Writes, hunits]
  generalize tail ++ data = joined
  obtain ⟨hlen, hkept⟩ := length_split (Nat.mod_le joined.length 3)
  refine ⟨_, _, (take_append_drop (joined.length - joined.length % 3) joined).symm, by omega, fun later => ?_, fun hfit => ?_⟩
  · rw [base64Units, encode_append _ _ _ _ (by omega), map_append]
    rfl
  · rw [length_base64Units, hlen] at hfit
    rw [if_neg Bool.false_ne_true, if_pos (checkedOutput_of_le hfit), Nat.sub_sub_self (Nat.mod_le _ _), ← pack_kept hkept]
    simp +contextual

theorem decodeBase64_end (hfit : (decodeAll encoding (tail ++ data)).length ≤ stringMaxCodeUnits) :
    decodeBase64 (pendingPack tail) data true url = some (decodeAll encoding (tail ++ data), 0) := by
  rw [hunits] at hfit ⊢
  rw [length_base64Units] at hfit
  rw [decodeBase64, joinPending, pendingUnpack_pack (by omega), if_pos rfl, if_pos (checkedOutput_of_le hfit), take_length]
  rfl

end Base64

section Stateless

variable {encoding : MalStringDecoderEncoding} {encode : UInt8 → List UInt16} {width : ℕ}
  (hwidth : ∀ b, (encode b).length = width) (hall : decodeAll encoding = flatMap encode) (htail : tail.length ≤ 0)
include hwidth hall htail

theorem decodeStateless_spec (hfit : (decodeAll encoding (tail ++ data)).length ≤ stringMaxCodeUnits) :
    decodeStateless (pendingPack tail) data encode width = some (decodeAll encoding (tail ++ data), 0) := by
  obtain rfl := length_eq_zero_iff.1 (Nat.le_zero.1 htail)
  have hlen : (data.flatMap encode).length = data.length * width := by simp [hwidth]
  rw [hall] at hfit ⊢
  rw [decodeStateless, if_pos (checkedOutput_of_le (hlen ▸ hfit))]
  rfl

theorem decodeStateless_write : Writes encoding (tail ++ data) (decodeStateless (pendingPack tail) data encode width) := by
  refine ⟨tail ++ data, [], (append_nil _).symm, Nat.zero_le _, fun later => ?_, decodeStateless_spec data hwidth hall htail⟩
  rw [hall]
  exact flatMap_append

end Stateless

theorem sdWrite_spec {encoding : MalStringDecoderEncoding} (htail : tail.length ≤ encoding.maxPending) :
    Writes encoding (tail ++ data) (sdWrite encoding (pendingPack tail) data) := by
  cases encoding with
  | utf8 => exact decodeUtf8_write data htail
  | utf16le => exact decodeUtf16le_write data htail
  | base64 | base64url => exact decodeBase64_write data rfl htail rfl
  | latin1 | ascii | hex => exact decodeStateless_write data (fun _ => rfl) rfl htail

/-- **The last call.** It decodes all that is left. -/
theorem sdEnd_spec {encoding : MalStringDecoderEncoding} (htail : tail.length ≤ encoding.maxPending)
    (hfit : (decodeAll encoding (tail ++ data)).length ≤ stringMaxCodeUnits) :
    sdEnd encoding (pendingPack tail) data = some (decodeAll encoding (tail ++ data), 0) := by
  have hdone : sdDecode encoding (pendingPack tail) data true = some (decodeAll encoding (tail ++ data), 0) := by
    cases encoding <;> rw [sdDecode]
    case utf8 => exact decodeUtf8_end data htail hfit
    case utf16le => exact decodeUtf16le_end data htail hfit
    case base64 => exact decodeBase64_end data rfl htail hfit
    case base64url => exact decodeBase64_end data rfl htail hfit
    all_goals exact decodeStateless_spec data (fun _ => rfl) rfl htail hfit
  rw [sdEnd, hdone]
  rfl

/-! ## All chunks -/

theorem writes_spec {encoding : MalStringDecoderEncoding} (chunks : List (List UInt8)) (out : List UInt16)
    (htail : tail.length ≤ encoding.maxPending)
    (hfit : (decodeAll encoding (tail ++ chunks.flatten)).length ≤ stringMaxCodeUnits) :
    ∃ out' kept, chunks.foldlM (fun s data => (sdWrite encoding s.2 data).map fun r => (s.1 ++ r.1, r.2))
        (out, pendingPack tail) = some (out', pendingPack kept) ∧ kept.length ≤ encoding.maxPending ∧
      out' ++ decodeAll encoding kept = out ++ decodeAll encoding (tail ++ chunks.flatten) := by
  induction chunks generalizing out tail with
  | nil => exact ⟨out, tail, rfl, htail, by rw [flatten_nil, append_nil]⟩
  | cons data chunks ih =>
    obtain ⟨done, kept, heq, hkept, hcut, hwrite⟩ := sdWrite_spec data htail
    rw [flatten_cons, ← append_assoc, heq, append_assoc, hcut] at hfit ⊢
    rw [length_append] at hfit
    obtain ⟨out', kept', hrun, hkept', hout⟩ := ih (out ++ decodeAll encoding done) hkept (by omega)
    refine ⟨out', kept', ?_, hkept', by rw [hout, append_assoc]⟩
    rw [foldlM_cons, hwrite (by omega)]
    exact hrun

/-- **Chunk boundaries do not matter.** As long as the whole result is no longer than a string can be, no call fails, the
results of the writes and of the end are together the one-shot decoding of all bytes, and three bytes at most are kept. -/
theorem chunks_decoded (encoding : MalStringDecoderEncoding) (chunks : List (List UInt8))
    (hlimit : (decodeAll encoding chunks.flatten).length ≤ stringMaxCodeUnits) :
    (∃ out kept last, writeAll encoding chunks = some (out, pendingPack kept) ∧
      pendingUnpack (pendingPack kept) = kept ∧ kept.length ≤ 3 ∧
      sdEnd encoding (pendingPack kept) [] = some (last, 0) ∧ out ++ last = decodeAll encoding chunks.flatten) ∧
    pendingUnpack 0 = [] ∧
    ∃ ss bad, Decodes chunks.flatten ss bad ∧ decodeAll .utf8 chunks.flatten = utf16Units ss := by
  refine ⟨?_, rfl, ?_⟩
  · have hstart : ([] : List UInt8).length ≤ encoding.maxPending := Nat.zero_le _
    obtain ⟨out, kept, hrun, hkept, hout⟩ := writes_spec chunks [] hstart hlimit
    have hthree : kept.length ≤ 3 := hkept.trans (by cases encoding <;> decide)
    have hlast := congrArg length hout
    rw [length_append, nil_append, nil_append] at hlast
    refine ⟨out, kept, _, hrun, pendingUnpack_pack hthree, hthree, sdEnd_spec [] hkept ?_, ?_⟩
    · rw [append_nil]
      omega
    · rw [append_nil]
      exact hout
  · obtain ⟨ss, bad, hd, heq⟩ := utf8DecodeReport_decodes chunks.flatten
    exact ⟨ss, bad, hd, by rw [decodeAll, heq]⟩

/-- the euro sign in two chunks -/
theorem chunks_decoded_euro : ∃ out last, (writeAll .utf8 [[0xE2, 0x82], [0xAC]]).map Prod.fst = some out ∧
    out ++ last = [0x20AC] := by
  obtain ⟨⟨out, kept, last, hwrite, -, -, -, hout⟩, -⟩ := chunks_decoded .utf8 [[0xE2, 0x82], [0xAC]] (by decide)
  exact ⟨out, last, by rw [hwrite]; rfl, hout⟩

end Maligator.StringDecoder
