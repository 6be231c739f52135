/-
Base64: `mal_base64_encode` and the decoder `mal_b64_decode` of Uint8Array.fromBase64 and setFromBase64.

The decoder takes four sextets at a time, keeps the read position behind at the last complete chunk, and settles a partial
chunk and its padding after the loop. `fromBase64` states the proposal's FromBase64 over the same input. Code units are
naturals: the decoder only compares them and subtracts the start of a digit range.
-/
import Mathlib.Data.List.Basic

namespace Maligator.Base64

open List

inductive Alphabet where
  | standard
  | url
  | either
deriving DecidableEq, Repr

inductive LastChunk where
  | loose
  | strict
  | stop
deriving DecidableEq, Repr

/-! ## base64.c -/

def isAsciiWhitespace (unit : ℕ) : Bool :=
  unit == 0x09 || unit == 0x0a || unit == 0x0c || unit == 0x0d || unit == 0x20

/-- `none` where the source returns -1 -/
def decodeDigit (unit : ℕ) (alphabet : Alphabet) : Option ℕ :=
  if 65 ≤ unit ∧ unit ≤ 90 then some (unit - 65)
  else if 97 ≤ unit ∧ unit ≤ 122 then some (unit - 97 + 26)
  else if 48 ≤ unit ∧ unit ≤ 57 then some (unit - 48 + 52)
  else if unit = 43 ∧ alphabet ≠ .url then some 62
  else if unit = 47 ∧ alphabet ≠ .url then some 63
  else if unit = 45 ∧ alphabet ≠ .standard then some 62
  else if unit = 95 ∧ alphabet ≠ .standard then some 63
  else none

/-- `mal_base64_alphabet_url` for the URL alphabet, `mal_base64_alphabet_standard` for the others -/
def digits (alphabet : Alphabet) : List ℕ :=
  (if alphabet = .url then "ABCDEFGHIJKLMNOPQRSTUVWXYZabcdefghijklmnopqrstuvwxyz0123456789-_"
    else "ABCDEFGHIJKLMNOPQRSTUVWXYZabcdefghijklmnopqrstuvwxyz0123456789+/").toList.map Char.toNat

/-- the digit of the low six bits of `word` -/
def digit (alphabet : Alphabet) (word : ℕ) : ℕ := (digits alphabet).getD (word &&& 0x3f) 0

/-- the block of one, two or three input bytes; the output bytes as code units -/
def encodeBlock (alphabet : Alphabet) (padding : Bool) : List UInt8 → List ℕ
  | [] => []
  | [a] =>
    let word := a.toNat <<< 16
    [digit alphabet (word >>> 18), digit alphabet (word >>> 12)] ++ if padding then [61, 61] else []
  | [a, b] =>
    let word := a.toNat <<< 16 ||| b.toNat <<< 8
    [digit alphabet (word >>> 18), digit alphabet (word >>> 12), digit alphabet (word >>> 6)]
      ++ if padding then [61] else []
  | a :: b :: c :: _ =>
    let word := a.toNat <<< 16 ||| b.toNat <<< 8 ||| c.toNat
    [digit alphabet (word >>> 18), digit alphabet (word >>> 12), digit alphabet (word >>> 6), digit alphabet word]

def encode (alphabet : Alphabet) (padding : Bool) : List UInt8 → List ℕ
  | a :: b :: c :: rest => encodeBlock alphabet padding [a, b, c] ++ encode alphabet padding rest
  | rest => encodeBlock alphabet padding rest

/-! ## mal_b64_decode -/

/-- the output, `*read_out`, and the message of the SyntaxError thrown, if one is -/
structure Decoded where
  bytes : List UInt8
  read : ℕ
  error : Option String
deriving DecidableEq, Repr

/-- the locals of the decoder: the bytes written, the read position, and the sextets of the open chunk -/
structure Progress where
  out : List UInt8
  read : ℕ
  acc : ℕ
  nsext : ℕ

@[simp] def Progress.stop (p : Progress) : Decoded := ⟨p.out, p.read, none⟩

@[simp] def Progress.fail (p : Progress) (message : String) : Decoded := ⟨p.out, p.read, some message⟩

def lowByte (n : ℕ) : UInt8 := UInt8.ofNat (n &&& 0xff)

/-- the loop over `=`: the padding seen, up to `needed`, and the input after it and its whitespace -/
def takePadding : ℕ → List ℕ → ℕ × List ℕ
  | needed + 1, 61 :: rest =>
    let (seen, after) := takePadding needed (rest.dropWhile isAsciiWhitespace)
    (seen + 1, after)
  | _, rest => (0, rest)

def Progress.finish (p : Progress) (maxOut len produced : ℕ) : Decoded :=
  let value := p.acc >>> (p.nsext * 6 - produced * 8)
  ⟨if p.out.length + produced ≤ maxOut then
      p.out ++ (range produced).reverse.map fun b => lowByte (value >>> (b * 8))
    else p.out, len, none⟩

/-- from the first `=` or the end of the input on -/
def decodeTail (mode : LastChunk) (maxOut len : ℕ) (p : Progress) (rest : List ℕ) : Decoded :=
  if p.nsext = 0 then
    if rest.all isAsciiWhitespace then ⟨p.out, len, none⟩ else p.fail "Unexpected base64 padding"
  else
    let produced := if p.nsext = 2 then 1 else 2
    let extraMask := if p.nsext = 1 then 0 else 1 <<< (p.nsext * 6 - produced * 8) - 1
    if 2 ≤ p.nsext ∧ maxOut < p.out.length + produced then p.stop
    else if rest.head? ≠ some 61 then
      if mode = .stop then p.stop
      else if p.nsext = 1 then p.fail "Invalid base64 length"
      else if mode = .strict then p.fail "Missing base64 padding"
      else p.finish maxOut len produced
    else if p.nsext = 1 then p.fail "Invalid base64 length"
    else
      let (seen, after) := takePadding (4 - p.nsext) rest
      if seen < 4 - p.nsext then
        if mode = .stop then p.stop else p.fail "Malformed base64 padding"
      else if !after.all isAsciiWhitespace then p.fail "Unexpected character after base64 padding"
      else if mode = .strict ∧ p.acc &&& extraMask ≠ 0 then p.fail "Extra bits in base64 chunk"
      else p.finish maxOut len produced

def alphabetOf (url : Bool) : Alphabet := if url then .url else .standard

section

variable (url : Bool) (mode : LastChunk) (maxOut len : ℕ)

/-- the main loop at index `i`, with the input from there on -/
def decodeLoop : List ℕ → ℕ → Progress → Decoded
  | [], _, p => decodeTail mode maxOut len p []
  | c :: rest, i, p =>
    if isAsciiWhitespace c then decodeLoop rest (i + 1) p
    else if c = 61 then decodeTail mode maxOut len p (c :: rest)
    else match decodeDigit c (alphabetOf url) with
      | none => p.fail "Invalid base64 character"
      | some v =>
        let acc := p.acc <<< 6 ||| v
        if p.nsext + 1 = 4 then
          if maxOut < p.out.length + 3 then p.stop
          else
            let out := p.out ++ [lowByte (acc >>> 16), lowByte (acc >>> 8), lowByte acc]
            if out.length = maxOut then ⟨out, i + 1, none⟩ else decodeLoop rest (i + 1) ⟨out, i + 1, 0, 0⟩
        else decodeLoop rest (i + 1) ⟨p.out, p.read, acc, p.nsext + 1⟩

def malB64Decode (s : List ℕ) : Decoded :=
  if maxOut = 0 then ⟨[], 0, none⟩ else decodeLoop url mode maxOut s.length s 0 ⟨[], 0, 0, 0⟩

/-! ## FromBase64 of the proposal -/

/-- the proposal's record: bytes, read position, and whether the error is none -/
structure Outcome where
  bytes : List UInt8
  read : ℕ
  ok : Bool
deriving DecidableEq, Repr

@[simp] def Decoded.outcome (d : Decoded) : Outcome := ⟨d.bytes, d.read, d.error.isNone⟩

/-- DecodeFullLengthBase64Chunk, of the four sextets -/
def fullChunk (a b c d : ℕ) : List UInt8 :=
  let word := a * 262144 + b * 4096 + c * 64 + d
  [UInt8.ofNat (word / 65536), UInt8.ofNat (word / 256), UInt8.ofNat word]

/-- DecodeFinalBase64Chunk: the partial chunk filled up with zero sextets -/
def finalChunk (throwOnExtraBits : Bool) : List ℕ → Option (List UInt8)
  | [a, b] =>
    let bytes := fullChunk a b 0 0
    if throwOnExtraBits ∧ bytes.getD 1 0 ≠ 0 then none else some (bytes.take 1)
  | [a, b, c] =>
    let bytes := fullChunk a b c 0
    if throwOnExtraBits ∧ bytes.getD 2 0 ≠ 0 then none else some (bytes.take 2)
  | _ => none

/-- what follows the first `=` -/
def fromPadding (bytes : List UInt8) (read : ℕ) (chunk rest : List ℕ) : Outcome :=
  let rest := rest.dropWhile isAsciiWhitespace
  if chunk.length < 2 then ⟨bytes, read, false⟩
  else if chunk.length = 2 ∧ rest = [] then ⟨bytes, read, mode = .stop⟩
  else
    let rest := if chunk.length = 2 ∧ rest.head? = some 61 then rest.tail.dropWhile isAsciiWhitespace else rest
    if rest ≠ [] then ⟨bytes, read, false⟩
    else match finalChunk (mode = .strict) chunk with
      | none => ⟨bytes, read, false⟩
      | some last => ⟨bytes ++ last, len, true⟩

/-- the proposal's loop; a digit is looked up in the alphabet's table -/
def fromLoop : List ℕ → ℕ → List UInt8 → ℕ → List ℕ → Outcome
  | [], _, bytes, read, chunk =>
    if chunk = [] then ⟨bytes, len, true⟩
    else match mode, finalChunk false chunk with
      | .stop, _ => ⟨bytes, read, true⟩
      | .loose, some last => ⟨bytes ++ last, len, true⟩
      | _, _ => ⟨bytes, read, false⟩
  | c :: rest, index, bytes, read, chunk =>
    if isAsciiWhitespace c then fromLoop rest (index + 1) bytes read chunk
    else if c = 61 then fromPadding mode len bytes read chunk rest
    else match (digits (alphabetOf url)).idxOf? c with
      | none => ⟨bytes, read, false⟩
      | some v =>
        let remaining := maxOut - bytes.length
        if remaining = 1 ∧ chunk.length = 2 ∨ remaining = 2 ∧ chunk.length = 3 then ⟨bytes, read, true⟩
        else match chunk with
          | [x, y, z] =>
            let bytes := bytes ++ fullChunk x y z v
            if bytes.length = maxOut then ⟨bytes, index + 1, true⟩
            else fromLoop rest (index + 1) bytes (index + 1) []
          | _ => fromLoop rest (index + 1) bytes read (chunk ++ [v])

def fromBase64 (s : List ℕ) : Outcome :=
  if maxOut = 0 then ⟨[], 0, true⟩ else fromLoop url mode maxOut s.length s 0 [] 0 []

end

/-! ## Where the two differ -/

def digitRun (url : Bool) (s : List ℕ) : ℕ :=
  ((s.filter (!isAsciiWhitespace ·)).takeWhile fun c => (decodeDigit c (alphabetOf url)).isSome).length

def afterDigits (url : Bool) (s : List ℕ) : List ℕ :=
  (s.filter (!isAsciiWhitespace ·)).dropWhile fun c => (decodeDigit c (alphabetOf url)).isSome

/-- one `=` and then something else -/
def brokenPadding : List ℕ → Bool
  | 61 :: c :: _ => c ≠ 61
  | _ => false

/-- With `pending` digits read, the run ends at a third character with one byte left and something illegal follows: the
proposal stops at that third character, the decoder reads on to the illegal one. -/
def readsPastCapacity (url : Bool) (room pending : ℕ) (s : List ℕ) : Bool :=
  room % 3 = 1 ∧ pending + digitRun url s = 4 * (room / 3) + 3 ∧ (afterDigits url s).head?.any (· ≠ 61)

/-- A chunk of two digits has a broken padding: an error of the proposal, a stop of the decoder. -/
def cutPadding (url : Bool) (mode : LastChunk) (room pending : ℕ) (s : List ℕ) : Bool :=
  mode = .stop ∧ (pending + digitRun url s) % 4 = 2 ∧ 3 * ((pending + digitRun url s) / 4) < room ∧
    brokenPadding (afterDigits url s)

/-! ## Digits -/

theorem decodeDigit_eq (url : Bool) (c : ℕ) : decodeDigit c (alphabetOf url) = (digits (alphabetOf url)).idxOf? c := by
  have hsmall : ∀ url : Bool, ∀ c < 128, decodeDigit c (alphabetOf url) = (digits (alphabetOf url)).idxOf? c := by
    decide +kernel
  have hbound : ∀ url : Bool, ∀ d ∈ digits (alphabetOf url), d < 128 := by decide +kernel
  by_cases hc : c < 128
  · exact hsmall url c hc
  have hmem : c ∉ digits (alphabetOf url) := fun h => hc (hbound url c h)
  rw [List.idxOf?_eq_none_iff.mpr hmem]
  unfold decodeDigit
  repeat rw [if_neg (by omega)]

variable {url : Bool} {c v a m n x y z : ℕ}

theorem decodeDigit_lt (h : decodeDigit c (alphabetOf url) = some v) : v < 64 := by
  unfold decodeDigit at h
  split_ifs at h <;> simp only [Option.some.injEq] at h <;> omega

theorem decodeDigit_digit (url : Bool) (n : ℕ) :
    decodeDigit (digit (alphabetOf url) n) (alphabetOf url) = some (n % 64) := by
  have hall : ∀ url : Bool, ∀ v < 64, decodeDigit ((digits (alphabetOf url)).getD v 0) (alphabetOf url) = some v := by
    decide +kernel
  rw [digit, show (0x3f : ℕ) = 2 ^ 6 - 1 from rfl, Nat.and_two_pow_sub_one_eq_mod]
  exact hall url (n % 64) (Nat.mod_lt _ (by omega))

theorem digit_plain (h : decodeDigit c (alphabetOf url) = some v) : isAsciiWhitespace c = false ∧ c ≠ 61 := by
  unfold decodeDigit at h
  simp only [isAsciiWhitespace, Bool.or_eq_false_iff, beq_eq_false_iff_ne]
  split_ifs at h <;> omega

theorem decodeDigit_pad (url : Bool) : decodeDigit 61 (alphabetOf url) = none := by cases url <;> rfl

section

variable {s : List ℕ}

theorem run_white (h : isAsciiWhitespace c = true) :
    digitRun url (c :: s) = digitRun url s ∧ afterDigits url (c :: s) = afterDigits url s := by
  simp [digitRun, afterDigits, h]

theorem run_digit (hv : decodeDigit c (alphabetOf url) = some v) :
    digitRun url (c :: s) = digitRun url s + 1 ∧ afterDigits url (c :: s) = afterDigits url s := by
  simp [digitRun, afterDigits, (digit_plain hv).1, hv]

theorem run_other (h : isAsciiWhitespace c = false) (hv : decodeDigit c (alphabetOf url) = none) :
    digitRun url (c :: s) = 0 ∧ afterDigits url (c :: s) = c :: s.filter (!isAsciiWhitespace ·) := by
  simp [digitRun, afterDigits, h, hv]

end

/-! ## Chunks -/

theorem shiftLeft_or (h : v < 64) : a <<< 6 ||| v = a * 64 + v := by
  rw [← Nat.shiftLeft_add_eq_or_of_lt (i := 6) (by omega) a, Nat.shiftLeft_eq]

theorem lowByte_eq (n : ℕ) : lowByte n = UInt8.ofNat n := by
  rw [lowByte, show (0xff : ℕ) = 2 ^ 8 - 1 from rfl, Nat.and_two_pow_sub_one_eq_mod]
  exact UInt8.ofNat_mod_size

theorem ofNat_congr (h : m % 256 = n % 256) : UInt8.ofNat m = UInt8.ofNat n := by
  rw [← UInt8.toNat_inj]
  exact h

/-- the decoder's locals when the open chunk holds the sextets `chunk` -/
@[simp] def Progress.of (out : List UInt8) (read : ℕ) (chunk : List ℕ) : Progress :=
  ⟨out, read, chunk.foldl (fun acc v => acc * 64 + v) 0, chunk.length⟩

section

variable {mode : LastChunk} {maxOut len read i : ℕ} {out : List UInt8} {chunk s rest : List ℕ} (a b : ℕ)

theorem finish_two (hroom : out.length < maxOut) :
    Progress.finish ⟨out, read, a * 64 + b, 2⟩ maxOut len 1 = ⟨out ++ (fullChunk a b 0 0).take 1, len, none⟩ := by
  have hfit : out.length + 1 ≤ maxOut := hroom
  simp [Progress.finish, fullChunk, lowByte_eq, Nat.shiftRight_eq_div_pow, hfit]
  exact ofNat_congr (by omega)

theorem finish_three (a b c : ℕ) (hroom : out.length + 2 ≤ maxOut) :
    Progress.finish ⟨out, read, (a * 64 + b) * 64 + c, 3⟩ maxOut len 2 =
      ⟨out ++ (fullChunk a b c 0).take 2, len, none⟩ := by
  simp [Progress.finish, fullChunk, lowByte_eq, Nat.shiftRight_eq_div_pow, hroom, range_succ]
  exact ⟨ofNat_congr (by omega), ofNat_congr (by omega)⟩

theorem extra_two : (a * 64 + b) &&& 15 = 0 ↔ (fullChunk a b 0 0).getD 1 0 = 0 := by
  rw [show (15 : ℕ) = 2 ^ 4 - 1 from rfl, Nat.and_two_pow_sub_one_eq_mod, ← UInt8.toNat_inj]
  simp only [fullChunk, getD_cons_succ, getD_cons_zero, UInt8.toNat_ofNat', UInt8.toNat_zero]
  omega

theorem extra_three (a b c : ℕ) : ((a * 64 + b) * 64 + c) &&& 3 = 0 ↔ (fullChunk a b c 0).getD 2 0 = 0 := by
  rw [show (3 : ℕ) = 2 ^ 2 - 1 from rfl, Nat.and_two_pow_sub_one_eq_mod, ← UInt8.toNat_inj]
  simp only [fullChunk, getD_cons_succ, getD_cons_zero, UInt8.toNat_ofNat', UInt8.toNat_zero]
  omega

/-! ## The tail -/

theorem dropWhile_head {t : List ℕ} (h : s.dropWhile isAsciiWhitespace = c :: t) : isAsciiWhitespace c = false := by
  have hhead := List.head_dropWhile_not isAsciiWhitespace (l := s) (by simp [h])
  simpa [h] using hhead

theorem filter_dropWhile (s : List ℕ) :
    (s.dropWhile isAsciiWhitespace).filter (!isAsciiWhitespace ·) = s.filter (!isAsciiWhitespace ·) := by
  induction s with
  | nil => rfl
  | cons c rest ih => by_cases h : isAsciiWhitespace c <;> simp_all

def Fits (maxOut : ℕ) (out : List UInt8) (chunk : List ℕ) : Prop :=
  chunk.length < 4 ∧ out.length < maxOut ∧ (chunk.length = 3 → out.length + 2 ≤ maxOut)

theorem decodeTail_nil (h : Fits maxOut out chunk) :
    (decodeTail mode maxOut len (.of out read chunk) []).outcome = fromLoop url mode maxOut len [] i out read chunk := by
  obtain ⟨hlen, hroom, htwo⟩ := h
  rcases chunk with _ | ⟨a, _ | ⟨b, _ | ⟨c, _ | ⟨d, t⟩⟩⟩⟩
  · simp [decodeTail, fromLoop]
  · cases mode <;> simp [decodeTail, fromLoop, finalChunk]
  · have hfit : ¬ maxOut < out.length + 1 := by omega
    cases mode <;> simp [decodeTail, fromLoop, finalChunk, hfit, finish_two a b hroom]
  · have hfit : ¬ maxOut < out.length + 2 := Nat.not_lt.mpr (htwo rfl)
    cases mode <;> simp [decodeTail, fromLoop, finalChunk, hfit, finish_three a b c (htwo rfl)]
  · simp only [length_cons] at hlen
    omega

@[simp] theorem isAsciiWhitespace_pad : isAsciiWhitespace 61 = false := rfl

theorem decodeTail_pad (h : Fits maxOut out chunk) :
    (decodeTail mode maxOut len (.of out read chunk) (61 :: rest)).outcome = fromPadding mode len out read chunk rest ↔
      ¬ (mode = .stop ∧ chunk.length = 2 ∧ brokenPadding (61 :: rest.filter (!isAsciiWhitespace ·))) := by
  obtain ⟨hlen, hroom, htwo⟩ := h
  rcases chunk with _ | ⟨a, _ | ⟨b, _ | ⟨c, _ | ⟨d, t⟩⟩⟩⟩
  · simp [decodeTail, fromPadding]
  · simp [decodeTail, fromPadding]
  · have hfit : ¬ maxOut < out.length + 1 := by omega
    rw [← filter_dropWhile]
    cases hafter : rest.dropWhile isAsciiWhitespace with
    | nil =>
      cases mode <;> simp [decodeTail, fromPadding, hfit, takePadding, hafter, brokenPadding]
    | cons d more =>
      by_cases hd : d = 61
      · subst hd
        cases hend : more.dropWhile isAsciiWhitespace with
        | nil =>
          simp [decodeTail, fromPadding, takePadding, hfit, hafter, hend, brokenPadding, finalChunk, extra_two,
            finish_two a b hroom]
          split_ifs <;> rfl
        | cons e t =>
          simp [decodeTail, fromPadding, hfit, takePadding, hafter, hend, brokenPadding, dropWhile_head hend]
      · cases mode <;> simp [decodeTail, fromPadding, hfit, takePadding, hafter, brokenPadding, hd,
          dropWhile_head hafter]
  · have hfit : ¬ maxOut < out.length + 2 := Nat.not_lt.mpr (htwo rfl)
    cases hend : rest.dropWhile isAsciiWhitespace with
    | nil =>
      simp [decodeTail, fromPadding, takePadding, hend, finalChunk, extra_three, finish_three a b c (htwo rfl)]
      split_ifs <;> rfl
    | cons e t =>
      simp [decodeTail, fromPadding, hfit, takePadding, hend, dropWhile_head hend]
  · simp only [length_cons] at hlen
    omega

theorem decodeLoop_full {p : Progress} (hp : p.nsext = 3) (hone : p.out.length + 1 = maxOut) :
    (decodeLoop url mode maxOut len s i p).outcome = ⟨p.out, p.read, true⟩ ↔
      ¬ (digitRun url s = 0 ∧ (afterDigits url s).head?.any (· ≠ 61)) := by
  have htail : ∀ rest, decodeTail mode maxOut len p rest = p.stop := by
    intro rest
    have hfull : maxOut < p.out.length + 2 := by omega
    simp [decodeTail, hp, hfull]
  induction s generalizing i with
  | nil => simp [decodeLoop, htail, afterDigits]
  | cons c rest ih =>
    rw [decodeLoop]
    cases hw : isAsciiWhitespace c with
    | true =>
      rw [(run_white hw).1, (run_white hw).2]
      exact ih
    | false =>
      by_cases hpad : c = 61
      · subst hpad
        rw [htail, (run_other hw (decodeDigit_pad url)).2]
        simp
      rw [if_neg hpad]
      cases hv : decodeDigit c (alphabetOf url) with
      | none => simp [run_other hw hv, hpad]
      | some v =>
        have hfull : maxOut < p.out.length + 3 := by omega
        simp [run_digit hv, hp, hfull]

theorem fullChunk_eq (a b c d : ℕ) (hd : d < 64) : let acc := ((a * 64 + b) * 64 + c) <<< 6 ||| d
    [lowByte (acc >>> 16), lowByte (acc >>> 8), lowByte acc] = fullChunk a b c d := by
  simp only [shiftLeft_or hd, lowByte_eq]
  congr 1
  · exact ofNat_congr (by omega)
  · congr 1
    · exact ofNat_congr (by omega)
    · congr 1
      exact ofNat_congr (by omega)

section

variable (hv : decodeDigit c (alphabetOf url) = some v) (x y z : ℕ)
include hv

theorem decodeLoop_push (hlen : chunk.length < 3) : decodeLoop url mode maxOut len (c :: rest) i (.of out read chunk) =
      decodeLoop url mode maxOut len rest (i + 1) (.of out read (chunk ++ [v])) := by
  have hfour : ¬ chunk.length + 1 = 4 := by omega
  simp [decodeLoop, digit_plain hv, hv, shiftLeft_or (decodeDigit_lt hv), hfour]

theorem fromLoop_push (hlen : chunk.length < 3) (hone : ¬ (maxOut - out.length = 1 ∧ chunk.length = 2)) :
    fromLoop url mode maxOut len (c :: rest) i out read chunk =
      fromLoop url mode maxOut len rest (i + 1) out read (chunk ++ [v]) := by
  have hgo : ¬ (maxOut - out.length = 1 ∧ chunk.length = 2 ∨ maxOut - out.length = 2 ∧ chunk.length = 3) := by omega
  rw [fromLoop]
  simp only [digit_plain hv, ← decodeDigit_eq, hv, if_neg hgo]
  rcases chunk with _ | ⟨a, _ | ⟨b, _ | ⟨d, t⟩⟩⟩
  · rfl
  · rfl
  · rfl
  · simp only [length_cons] at hlen
    omega

theorem decodeLoop_fourth (hroom : out.length + 3 ≤ maxOut) :
    decodeLoop url mode maxOut len (c :: rest) i (.of out read [x, y, z]) =
      if out.length + 3 = maxOut then ⟨out ++ fullChunk x y z v, i + 1, none⟩
      else decodeLoop url mode maxOut len rest (i + 1) (.of (out ++ fullChunk x y z v) (i + 1) []) := by
  have hgo : ¬ maxOut < out.length + 3 := by omega
  simp [decodeLoop, digit_plain hv, hv, hgo, ← fullChunk_eq x y z v (decodeDigit_lt hv)]

theorem fromLoop_fourth (hroom : out.length + 3 ≤ maxOut) :
    fromLoop url mode maxOut len (c :: rest) i out read [x, y, z] =
      if out.length + 3 = maxOut then ⟨out ++ fullChunk x y z v, i + 1, true⟩
      else fromLoop url mode maxOut len rest (i + 1) (out ++ fullChunk x y z v) (i + 1) [] := by
  have hgo : ¬ maxOut - out.length = 2 := by omega
  simp [fromLoop, digit_plain hv, hv, ← decodeDigit_eq, hgo, fullChunk]

theorem decodeLoop_stop (hfull : maxOut < out.length + 3) :
    decodeLoop url mode maxOut len (c :: rest) i (.of out read [x, y, z]) = ⟨out, read, none⟩ := by
  simp [decodeLoop, digit_plain hv, hv, hfull]

theorem fromLoop_stop
    (hfull : maxOut - out.length = 1 ∧ chunk.length = 2 ∨ maxOut - out.length = 2 ∧ chunk.length = 3) :
    fromLoop url mode maxOut len (c :: rest) i out read chunk = ⟨out, read, true⟩ := by
  rw [fromLoop]
  simp only [digit_plain hv, ← decodeDigit_eq, hv, if_false, if_pos hfull, Bool.false_eq_true]

end

theorem decodeLoop_eq_iff (h : Fits maxOut out chunk) :
    (decodeLoop url mode maxOut len s i (.of out read chunk)).outcome = fromLoop url mode maxOut len s i out read chunk ↔
      readsPastCapacity url (maxOut - out.length) chunk.length s = false ∧
        cutPadding url mode (maxOut - out.length) chunk.length s = false := by
  induction s generalizing i out read chunk with
  | nil =>
    refine iff_of_true (decodeTail_nil h) ?_
    simp [readsPastCapacity, cutPadding, afterDigits, brokenPadding]
  | cons c rest ih =>
    obtain ⟨hlen, hroom, htwo⟩ := id h
    cases hv : decodeDigit c (alphabetOf url) with
    | none =>
      rw [decodeLoop, fromLoop, ← decodeDigit_eq, hv]
      cases hw : isAsciiWhitespace c with
      | true =>
        simp only [readsPastCapacity, cutPadding, run_white hw]
        exact ih h
      | false =>
        simp only [Bool.false_eq_true, if_false]
        by_cases hpad : c = 61
        · subst hpad
          have hpart : chunk.length % 4 = 2 ∧ 3 * (chunk.length / 4) < maxOut - out.length ↔ chunk.length = 2 := by omega
          rw [if_pos rfl, if_pos rfl, decodeTail_pad h]
          simp [readsPastCapacity, cutPadding, run_other hw hv, ← hpart]
        · simp [readsPastCapacity, cutPadding, run_other hw hv, hpad, brokenPadding]
          omega
    | some v =>
      simp only [readsPastCapacity, cutPadding, run_digit hv]
      by_cases hfour : chunk.length < 3
      · have hshift : ∀ k, chunk.length + (k + 1) = (chunk ++ [v]).length + k := by
          intro k
          simp only [length_append, length_singleton]
          omega
        rw [decodeLoop_push hv hfour]
        simp only [hshift]
        by_cases hone : maxOut - out.length = 1 ∧ chunk.length = 2
        · -- the proposal stops here, the decoder goes on with three sextets
          rw [fromLoop_stop hv (.inl hone)]
          refine (decodeLoop_full (p := .of out read (chunk ++ [v])) (by simp [hone.2])
            (show out.length + 1 = maxOut by omega)).trans ?_
          simp only [length_append, hone, length_singleton, decide_eq_false_iff_not]
          constructor
          · exact fun hnot => ⟨fun hbad => hnot ⟨by omega, hbad.2.2⟩, fun hbad => by omega⟩
          · rintro ⟨hnot, -⟩ ⟨hrun, hnext⟩
            exact hnot ⟨trivial, by omega, hnext⟩
        · rw [fromLoop_push hv hfour hone]
          refine ih ⟨?_, hroom, ?_⟩ <;> simp only [length_append, length_singleton] <;> omega
      · obtain ⟨x, y, z, rfl⟩ := List.length_eq_three.mp (show chunk.length = 3 by omega)
        by_cases hrem : out.length + 3 ≤ maxOut
        · rw [decodeLoop_fourth hv x y z hrem, fromLoop_fourth hv x y z hrem]
          by_cases hfull : out.length + 3 = maxOut
          · rw [if_pos hfull, if_pos hfull]
            refine iff_of_true rfl ⟨?_, ?_⟩ <;> rw [decide_eq_false_iff_not] <;> omega
          have hlength : (out ++ fullChunk x y z v).length = out.length + 3 := by simp [fullChunk]
          have hfit : Fits maxOut (out ++ fullChunk x y z v) [] := ⟨by simp, by omega, by simp⟩
          rw [if_neg hfull, if_neg hfull, ih hfit]
          simp only [readsPastCapacity, cutPadding, length_nil, decide_eq_false_iff_not]
          refine and_congr (not_congr (and_congr ?_ (and_congr ?_ Iff.rfl)))
            (not_congr (and_congr Iff.rfl (and_congr ?_ (and_congr ?_ Iff.rfl)))) <;> omega
        · rw [decodeLoop_stop hv x y z (by omega), fromLoop_stop hv (.inr ⟨by have := htwo rfl; omega, rfl⟩)]
          refine iff_of_true rfl ⟨?_, ?_⟩ <;> rw [decide_eq_false_iff_not] <;> omega

/-! ## What the encoder writes -/

theorem word_eq (a b c : UInt8) :
    a.toNat <<< 16 ||| b.toNat <<< 8 ||| c.toNat = a.toNat * 65536 + b.toNat * 256 + c.toNat := by
  have hb := b.toNat_lt
  have hc := c.toNat_lt
  have hhigh : a.toNat <<< 16 ||| b.toNat <<< 8 = (a.toNat * 256 + b.toNat) <<< 8 := by
    rw [← Nat.shiftLeft_add_eq_or_of_lt (by rw [Nat.shiftLeft_eq]; omega)]
    omega
  rw [hhigh, ← Nat.shiftLeft_add_eq_or_of_lt (by omega)]
  omega

theorem fullChunk_word (a b c : UInt8) : let word := a.toNat * 65536 + b.toNat * 256 + c.toNat
    fullChunk (word / 262144 % 64) (word / 4096 % 64) (word / 64 % 64) (word % 64) = [a, b, c] := by
  have ha := a.toNat_lt
  have hb := b.toNat_lt
  have hc := c.toNat_lt
  simp only [fullChunk, cons.injEq, ← UInt8.toNat_inj, UInt8.toNat_ofNat', and_true]
  refine ⟨?_, ?_, ?_⟩ <;> omega

section

variable (url : Bool) {padding : Bool} (hmode : padding = true ∨ mode = .loose)
include hmode

theorem decodeLoop_two {a : UInt8} (hchunk : fullChunk x y 0 0 = [a, 0, 0]) (hroom : out.length < maxOut) :
    decodeLoop url mode maxOut len (if padding then [61, 61] else []) i (.of out read [x, y]) =
      ⟨out ++ [a], len, none⟩ := by
  have hfit : ¬ maxOut < out.length + 1 := by omega
  have hextra : (x * 64 + y) &&& 15 = 0 := (extra_two x y).mpr (by simp [hchunk])
  rcases hmode with rfl | rfl
  · simp [decodeLoop, decodeTail, takePadding, hfit, hextra, finish_two x y hroom, hchunk]
  · cases padding <;> simp [decodeLoop, decodeTail, takePadding, hfit, finish_two x y hroom, hchunk]

theorem decodeLoop_three {a b : UInt8} (hchunk : fullChunk x y z 0 = [a, b, 0]) (hroom : out.length + 2 ≤ maxOut) :
    decodeLoop url mode maxOut len (if padding then [61] else []) i (.of out read [x, y, z]) =
      ⟨out ++ [a, b], len, none⟩ := by
  have hfit : ¬ maxOut < out.length + 2 := by omega
  have hextra : ((x * 64 + y) * 64 + z) &&& 3 = 0 := (extra_three x y z).mpr (by simp [hchunk])
  rcases hmode with rfl | rfl
  · simp [decodeLoop, decodeTail, takePadding, hfit, hextra, finish_three x y z hroom, hchunk]
  · cases padding <;> simp [decodeLoop, decodeTail, takePadding, hfit, finish_three x y z hroom, hchunk]

theorem decodeLoop_encode (bs : List UInt8) (hroom : out.length + bs.length ≤ maxOut)
    (hlen : i + (encode (alphabetOf url) padding bs).length = len) :
    decodeLoop url mode maxOut len (encode (alphabetOf url) padding bs) i (.of out read []) = ⟨out ++ bs, len, none⟩ := by
  fun_induction encode (alphabetOf url) padding bs generalizing i out read with
  | case1 a b c rest ih =>
    simp only [length_cons] at hroom
    simp only [encodeBlock, word_eq, cons_append, nil_append, length_cons] at hlen ⊢
    rw [decodeLoop_push (decodeDigit_digit url _) (by simp), decodeLoop_push (decodeDigit_digit url _) (by simp),
      decodeLoop_push (decodeDigit_digit url _) (by simp)]
    simp only [nil_append, cons_append]
    rw [decodeLoop_fourth (decodeDigit_digit url _) _ _ _ (by omega)]
    simp only [Nat.shiftRight_eq_div_pow, Nat.reducePow, fullChunk_word]
    split_ifs with hfull
    · have hnil : rest = [] := List.length_eq_zero_iff.mp (by omega)
      subst hnil
      simp [encode] at hlen ⊢
      exact hlen
    · rw [ih (by simp; omega) (by omega)]
      simp
  | case2 rest hshort =>
    rcases rest with _ | ⟨a, _ | ⟨b, _ | ⟨c, t⟩⟩⟩
    · simp [encodeBlock, decodeLoop, decodeTail]
    · have hword := word_eq a 0 0
      have hchunk := fullChunk_word a 0 0
      simp only [UInt8.toNat_zero, Nat.zero_shiftLeft, Nat.or_zero, Nat.add_zero] at hword hchunk
      rw [show a.toNat * 65536 / 64 % 64 = 0 by omega, show a.toNat * 65536 % 64 = 0 by omega] at hchunk
      simp only [encodeBlock, hword, cons_append]
      rw [decodeLoop_push (decodeDigit_digit url _) (by simp), decodeLoop_push (decodeDigit_digit url _) (by simp)]
      simp only [Nat.shiftRight_eq_div_pow]
      exact decodeLoop_two url hmode hchunk hroom
    · have hword := word_eq a b 0
      have hchunk := fullChunk_word a b 0
      simp only [UInt8.toNat_zero, Nat.or_zero, Nat.add_zero] at hword hchunk
      rw [show (a.toNat * 65536 + b.toNat * 256) % 64 = 0 by omega] at hchunk
      simp only [encodeBlock, hword, cons_append]
      rw [decodeLoop_push (decodeDigit_digit url _) (by simp), decodeLoop_push (decodeDigit_digit url _) (by simp),
        decodeLoop_push (decodeDigit_digit url _) (by simp)]
      simp only [Nat.shiftRight_eq_div_pow]
      exact decodeLoop_three url hmode hchunk hroom
    · exact absurd rfl (hshort a b c t)

end

/-- The decoder and the proposal agree exactly where neither exception applies, and the encoder's output, padded or else in
loose mode, comes back whole when it fits. -/
theorem malB64Decode_spec (url : Bool) (mode : LastChunk) (maxOut : ℕ) :
    (∀ s, (malB64Decode url mode maxOut s).outcome = fromBase64 url mode maxOut s ↔
      readsPastCapacity url maxOut 0 s = false ∧ cutPadding url mode maxOut 0 s = false) ∧
    ∀ padding bs, padding = true ∨ mode = .loose → bs.length ≤ maxOut →
      malB64Decode url mode maxOut (encode (alphabetOf url) padding bs) =
        ⟨bs, (encode (alphabetOf url) padding bs).length, none⟩ := by
  constructor
  · intro s
    rw [malB64Decode, fromBase64]
    by_cases hzero : maxOut = 0
    · simp [hzero, readsPastCapacity, cutPadding]
    rw [if_neg hzero, if_neg hzero]
    have hfit : Fits maxOut [] [] := ⟨by simp, Nat.pos_of_ne_zero hzero, by simp⟩
    exact decodeLoop_eq_iff hfit
  · intro padding bs hmode hroom
    rw [malB64Decode]
    by_cases hzero : maxOut = 0
    · have hnil : bs = [] := List.length_eq_zero_iff.mp (by omega)
      simp [hzero, hnil, encode, encodeBlock]
    · rw [if_neg hzero]
      exact decodeLoop_encode url hmode bs (by simpa using hroom) (by simp)

/-- `"AAA!"` into one byte: the proposal stops at the third character, the decoder throws at the fourth. `"AA=A"` in
stop-before-partial mode: the proposal has a SyntaxError, the decoder none. -/
theorem malB64Decode_differs : ((malB64Decode false .loose 1 [65, 65, 65, 33]).outcome = ⟨[], 0, false⟩ ∧
      fromBase64 false .loose 1 [65, 65, 65, 33] = ⟨[], 0, true⟩) ∧
    ((malB64Decode false .stop 3 [65, 65, 61, 65]).outcome = ⟨[], 0, true⟩ ∧
      fromBase64 false .stop 3 [65, 65, 61, 65] = ⟨[], 0, false⟩) := by
  decide +kernel

theorem malB64Decode_hi : malB64Decode true .strict 2 (encode .url true [72, 105]) = ⟨[72, 105], 4, none⟩ :=
  (malB64Decode_spec true .strict 2).2 true [72, 105] (.inl rfl) (by decide)

end

end Maligator.Base64
