/-
`mal_string_from_utf8_report`: bytes decoded straight into compact storage.

Pure ASCII becomes a string at once. Otherwise the ASCII prefix opens a text buffer, and each round first lets
`mal_utf8_decode_run` take well-formed sequences that fit the buffer's encoding within its free capacity, then an ASCII run
or one scalar through the slow path, which promotes the buffer when a unit above Latin-1 comes.
-/
import Maligator.Text.TextBuffer
import Maligator.Text.Utf8Decode

namespace Maligator.Text

open Swar List

/-! ## mal_utf8_decode_run -/

def isCont (b : UInt8) : Bool := b.toNat &&& 0xC0 = 0x80

/-- a two-byte sequence after its lead `b`: its unit, and its number of bytes -/
def runTwo (b : ℕ) : List UInt8 → Option (List UInt16 × ℕ)
  | c :: _ => if isCont c then some ([UInt16.ofNat (((b &&& 0x1F) <<< 6) ||| (c.toNat &&& 0x3F))], 2) else none
  | _ => none

def runThree (b : ℕ) : List UInt8 → Option (List UInt16 × ℕ)
  | c :: d :: _ =>
    let cp := ((b &&& 0x0F) <<< 12) ||| ((c.toNat &&& 0x3F) <<< 6) ||| (d.toNat &&& 0x3F)
    if isCont c && isCont d && !(cp < 0x800 || (cp ≥ 0xD800 && cp ≤ 0xDFFF)) then some ([UInt16.ofNat cp], 3) else none
  | _ => none

def runFour (b : ℕ) : List UInt8 → Option (List UInt16 × ℕ)
  | c :: d :: e :: _ =>
    let cp := ((b &&& 0x07) <<< 18) ||| ((c.toNat &&& 0x3F) <<< 12) ||| ((d.toNat &&& 0x3F) <<< 6) ||| (e.toNat &&& 0x3F)
    if isCont c && isCont d && isCont e && !(cp < 0x10000 || cp > 0x10FFFF) then some (emitPair cp, 4) else none
  | _ => none

/-- in a UTF-16 buffer: the ASCII run or the well-formed sequence at the front, as its units and its number of bytes -/
def runUtf16 : List UInt8 → Option (List UInt16 × ℕ)
  | [] => none
  | lead :: window =>
    let b := lead.toNat
    if b < 0x80 then
      let run := scan isAscii (lead :: window)
      some (((lead :: window).take run).map UInt8.toUInt16, run)
    else if 0xC2 ≤ b && b ≤ 0xDF then runTwo b window
    else if 0xE0 ≤ b && b ≤ 0xEF then runThree b window
    else if 0xF0 ≤ b && b ≤ 0xF4 then runFour b window
    else none

def isLatin1Lead (b : UInt8) : Bool := b.toNat &&& 0xFE = 0xC2

/-- the two-byte sequences of Latin-1 in front -/
def pairRun : List UInt8 → ℕ
  | lead :: cont :: rest => if isLatin1Lead lead && isCont cont then 1 + pairRun rest else 0
  | _ => 0

def pairUnits : ℕ → List UInt8 → List UInt8
  | count + 1, lead :: cont :: rest =>
    UInt8.ofNat (((lead.toNat &&& 3) <<< 6) ||| (cont.toNat &&& 0x3F)) :: pairUnits count rest
  | _, _ => []

/-- in a Latin-1 buffer: the ASCII run or the run of pairs at the front -/
def runLatin1 : List UInt8 → Option (List UInt8 × ℕ)
  | [] => none
  | lead :: window =>
    if lead.toNat < 0x80 then
      let run := scan isAscii (lead :: window)
      some ((lead :: window).take run, run)
    else if isLatin1Lead lead then
      -- the whole run of pairs is validated first
      let pairs := pairRun (lead :: window)
      if pairs = 0 then none else some (pairUnits pairs (lead :: window), 2 * pairs)
    else none

/-- runs one after another until one stops; the fuel is the number of bytes left -/
def decodeRuns {α : Type} (run : List UInt8 → Option (List α × ℕ)) : ℕ → List UInt8 → List α × ℕ
  | 0, _ => ([], 0)
  | fuel + 1, window =>
    match run window with
    | none => ([], 0)
    | some (units, count) =>
      let (rest, restCount) := decodeRuns run fuel (window.drop count)
      (units ++ rest, count + restCount)

/-- mal_utf8_decode_run: the buffer after the run, and the bytes left -/
def decodeRun (buffer : MalTextBuffer) (bytes : List UInt8) : MalTextBuffer × List UInt8 :=
  let window := bytes.take (buffer.capacity - buffer.length)
  match buffer.data with
  | .utf16 units =>
    let (new, count) := decodeRuns runUtf16 window.length window
    ({ buffer with data := .utf16 (units ++ new) }, bytes.drop count)
  | .latin1 units =>
    let (new, count) := decodeRuns runLatin1 window.length window
    ({ buffer with data := .latin1 (units ++ new) }, bytes.drop count)

/-! ## mal_string_from_utf8_report -/

inductive MalUtf8DecodeStatus where
  | ok
  | lengthOverflow
  deriving DecidableEq, Repr

def storeScalar (data : TextData) (cp width : ℕ) : TextData :=
  match data with
  | .latin1 units => .latin1 (units ++ [UInt8.ofNat cp])
  | .utf16 units => .utf16 (units ++ if width = 1 then [UInt16.ofNat cp] else emitPair cp)

/-- room for a scalar: a unit above Latin-1 promotes the buffer -/
def reserveScalar (buffer : MalTextBuffer) (cp width : ℕ) : MalTextBuffer :=
  if cp > 0xFF && !buffer.isUtf16 then buffer.reserveUtf16 width
  else if !buffer.allocated || width > buffer.capacity - buffer.length then buffer.reserve width
  else buffer

/-- the rounds; each takes a byte at least, so the fuel is the number of bytes left -/
def fromUtf8Loop : ℕ → List UInt8 → MalTextBuffer → Bool → MalTextBuffer × Bool
  | 0, _, buffer, hadError => (buffer, hadError)
  | fuel + 1, bytes, buffer, hadError =>
    if bytes = [] || buffer.status ≠ .ok then (buffer, hadError)
    else
      let (buffer, bytes) := if buffer.allocated then decodeRun buffer bytes else (buffer, bytes)
      if bytes = [] then (buffer, hadError)
      else
        let run := scan isAscii bytes
        if run ≠ 0 then fromUtf8Loop fuel (bytes.drop run) (buffer.appendLatin1 (bytes.take run)) hadError
        else
          let (cp, n, bad) := utf8ReadScalar bytes
          let width := if cp > 0xFFFF then 2 else 1
          let buffer := reserveScalar buffer cp width
          if buffer.status ≠ .ok then (buffer, hadError || bad)
          else fromUtf8Loop fuel (bytes.drop n) { buffer with data := storeScalar buffer.data cp width } (hadError || bad)

structure FromUtf8 where
  string : Option TextData
  hadError : Bool
  status : MalUtf8DecodeStatus
  deriving DecidableEq, Repr

def stringFromUtf8Report (bytes : List UInt8) : FromUtf8 :=
  let asciiPrefix := asciiRunEnd bytes
  if asciiPrefix = bytes.length then
    if bytes.length > stringMaxCodeUnits then ⟨none, false, .lengthOverflow⟩ else ⟨some (.latin1 bytes), false, .ok⟩
  else
    let hint := asciiPrefix + (bytes.length - asciiPrefix) / 2
    let hint := if hint > stringMaxCodeUnits then stringMaxCodeUnits else hint
    let buffer := (MalTextBuffer.empty.hintCapacity hint).appendLatin1 (bytes.take asciiPrefix)
    let (buffer, hadError) := fromUtf8Loop bytes.length (bytes.drop asciiPrefix) buffer false
    if buffer.status = .ok then ⟨some buffer.data, hadError, .ok⟩ else ⟨none, hadError, .lengthOverflow⟩

/-! ## Runs take whole scalars -/

/-- the first `count` bytes are the bytes of scalars, and the units are theirs -/
def TakesScalars (window : List UInt8) (units : List UInt16) (count : ℕ) : Prop :=
  ∃ ss rest, (∀ s ∈ ss, IsScalar s) ∧ window = ss.flatMap utf8Bytes ++ rest ∧ count = (ss.flatMap utf8Bytes).length ∧
    units = utf16Units ss

theorem TakesScalars.stop (window : List UInt8) : TakesScalars window [] 0 :=
  ⟨[], window, nofun, rfl, rfl, rfl⟩

theorem TakesScalars.trans {window : List UInt8} {units units' : List UInt16} {count count' : ℕ}
    (h : TakesScalars window units count) (h' : TakesScalars (window.drop count) units' count') :
    TakesScalars window (units ++ units') (count + count') := by
  obtain ⟨ss, rest, hs, rfl, rfl, rfl⟩ := h
  rw [drop_left] at h'
  obtain ⟨ts, tail, ht, rfl, rfl, rfl⟩ := h'
  refine ⟨ss ++ ts, tail, fun s hmem => (mem_append.1 hmem).elim (hs s) (ht s), ?_, ?_, flatMap_append.symm⟩
  · rw [flatMap_append, append_assoc]
  · rw [flatMap_append, length_append]

theorem TakesScalars.sequence {lead : UInt8} {cp n lo hi : ℕ} {conts : List UInt8}
    (h : utf8Lead lead.toNat = some (cp, n, lo, hi)) (hlen : conts.length + 1 = n) (hr : InRange lo hi conts) (rest : List UInt8) :
    TakesScalars (lead :: conts ++ rest) (scalarUnits (contBits cp conts)) n := by
  obtain ⟨hs, hbytes⟩ := lead_full h hlen hr
  refine ⟨[contBits cp conts], rest, by simpa using hs, ?_, ?_, ?_⟩
  · rw [flatMap_singleton, hbytes]
  · rw [flatMap_singleton, hbytes, length_cons, hlen]
  · rw [utf16Units, flatMap_singleton]

theorem toUInt16_ofNat {n : ℕ} (h : n < 0x100) : (UInt8.ofNat n).toUInt16 = UInt16.ofNat n := by
  rw [← UInt16.toNat_inj, UInt8.toNat_toUInt16, toNat_byte h, UInt16.toNat_ofNat_of_lt' (h.trans (by decide))]

theorem ascii_scalars {run : List UInt8} (h : ∀ u ∈ run, isAscii u = true) :
    (∀ s ∈ run.map UInt8.toNat, IsScalar s) ∧ (run.map UInt8.toNat).flatMap utf8Bytes = run ∧
      utf16Units (run.map UInt8.toNat) = run.map UInt8.toUInt16 := by
  induction run with
  | nil => exact ⟨nofun, rfl, rfl⟩
  | cons u run ih =>
    obtain ⟨h1, h2, h3⟩ := ih fun v hv => h v (mem_cons_of_mem _ hv)
    have hu : u.toNat < 0x80 := by simpa [isAscii] using h u (mem_cons_self ..)
    refine ⟨?_, ?_, ?_⟩
    · rw [map_cons, forall_mem_cons]
      exact ⟨.inl (by omega), h1⟩
    · rw [map_cons, flatMap_cons, h2, utf8Bytes_one hu, UInt8.ofNat_toNat]
      rfl
    · change scalarUnits u.toNat ++ utf16Units (run.map UInt8.toNat) = _
      rw [h3, scalarUnits, if_pos (by omega), ← toUInt16_ofNat u.toNat_lt, UInt8.ofNat_toNat]
      rfl

theorem scan_ascii (bytes : List UInt8) : ∀ u ∈ bytes.take (scan isAscii bytes), isAscii u = true := by
  rw [take_scan]
  exact fun u hu => mem_takeWhile_imp hu

theorem TakesScalars.ascii (bytes : List UInt8) :
    TakesScalars bytes ((bytes.take (scan isAscii bytes)).map UInt8.toUInt16) (scan isAscii bytes) := by
  obtain ⟨h1, h2, h3⟩ := ascii_scalars (scan_ascii bytes)
  refine ⟨_, bytes.drop (scan isAscii bytes), h1, ?_, ?_, h3.symm⟩
  · rw [h2, take_append_drop]
  · rw [h2, length_take, Nat.min_eq_left (scan_le _ _)]

theorem isCont_iff (b : UInt8) : isCont b = true ↔ 0x80 ≤ b.toNat ∧ b.toNat ≤ 0xBF := by
  have h : ∀ n : Fin 256, (n.val &&& 0xC0 = 0x80) ↔ 0x80 ≤ n.val ∧ n.val ≤ 0xBF := by decide +kernel
  rw [isCont, decide_eq_true_eq]
  exact h ⟨b.toNat, b.toNat_lt⟩

theorem isLatin1Lead_iff (b : UInt8) : isLatin1Lead b = true ↔ 0xC2 ≤ b.toNat ∧ b.toNat ≤ 0xC3 := by
  have h : ∀ n : Fin 256, (n.val &&& 0xFE = 0xC2) ↔ 0xC2 ≤ n.val ∧ n.val ≤ 0xC3 := by decide +kernel
  rw [isLatin1Lead, decide_eq_true_eq]
  exact h ⟨b.toNat, b.toNat_lt⟩

theorem contBits_two {cp : ℕ} (c : UInt8) : (cp <<< 6) ||| (c.toNat &&& 0x3F) = contBits cp [c] := rfl

theorem shift_bits {x y : ℕ} (k : ℕ) (hy : y < 2 ^ k) : (x <<< k) ||| y = x * 2 ^ k + y := by
  rw [Nat.shiftLeft_eq]
  exact or_eq_add k x (Nat.mul_comm _ _) hy

theorem contBits_three {cp : ℕ} (c d : UInt8) :
    (cp <<< 12) ||| ((c.toNat &&& 0x3F) <<< 6) ||| (d.toNat &&& 0x3F) = contBits cp [c, d] := by
  rw [contBits_cons, contBits_cons, contBits_nil, mask_eq_mod, mask_eq_mod, Nat.or_assoc, shift_bits 6 (by omega),
    shift_bits 12 (by omega)]
  omega

theorem contBits_four {cp : ℕ} (c d e : UInt8) :
    (cp <<< 18) ||| ((c.toNat &&& 0x3F) <<< 12) ||| ((d.toNat &&& 0x3F) <<< 6) ||| (e.toNat &&& 0x3F) =
      contBits cp [c, d, e] := by
  rw [contBits_cons, contBits_cons, contBits_cons, contBits_nil, mask_eq_mod, mask_eq_mod, mask_eq_mod, Nat.or_assoc,
    Nat.or_assoc, shift_bits 6 (by omega), shift_bits 12 (by omega), shift_bits 18 (by omega)]
  omega

theorem scalarUnits_bmp {s : ℕ} (h : s < 0x10000) : scalarUnits s = [UInt16.ofNat s] := by
  rw [scalarUnits, if_pos (by omega)]

theorem runTwo_spec {window : List UInt8} {units : List UInt16} {count : ℕ} {lead : UInt8} (h1 : 0xC2 ≤ lead.toNat)
    (h2 : lead.toNat ≤ 0xDF) (h : runTwo lead.toNat window = some (units, count)) :
    TakesScalars (lead :: window) units count := by
  have hlead : utf8Lead lead.toNat = some (lead.toNat &&& 0x1F, 2, 0x80, 0xBF) := by
    rw [utf8Lead, if_neg (by omega), if_pos (by simp; omega)]
  rcases window with _ | ⟨c, rest⟩
  · cases h
  rw [runTwo, contBits_two] at h
  split_ifs at h with hc
  rw [isCont_iff] at hc
  have hmask : lead.toNat &&& 0x1F = lead.toNat % 0x20 := Nat.and_two_pow_sub_one_eq_mod _ 5
  have hlt : contBits (lead.toNat &&& 0x1F) [c] < 0x10000 := by
    rw [contBits_cons, contBits_nil]
    omega
  rw [← scalarUnits_bmp hlt] at h
  cases h
  have hr : InRange 0x80 0xBF [c] := ⟨hc.1, hc.2, trivial⟩
  exact .sequence hlead rfl hr rest

theorem runThree_spec {window : List UInt8} {units : List UInt16} {count : ℕ} {lead : UInt8} (h1 : 0xE0 ≤ lead.toNat)
    (h2 : lead.toNat ≤ 0xEF) (h : runThree lead.toNat window = some (units, count)) :
    TakesScalars (lead :: window) units count := by
  have hlead : utf8Lead lead.toNat = some (lead.toNat &&& 0x0F, 3, if lead.toNat = 0xE0 then 0xA0 else 0x80,
      if lead.toNat = 0xED then 0x9F else 0xBF) := by
    rw [utf8Lead, if_neg (by omega), if_neg (by simp; omega), if_pos (by simp; omega)]
  rcases window with _ | ⟨c, _ | ⟨d, rest⟩⟩
  · cases h
  · cases h
  rw [runThree, contBits_three] at h
  split_ifs at h with hc
  simp only [Bool.and_eq_true, isCont_iff, Bool.not_eq_true', Bool.or_eq_false_iff, Bool.and_eq_false_iff,
    decide_eq_false_iff_not] at hc
  obtain ⟨⟨hc1, hd1⟩, hcp⟩ := hc
  have hmask : lead.toNat &&& 0x0F = lead.toNat % 0x10 := Nat.and_two_pow_sub_one_eq_mod _ 4
  have hval : contBits (lead.toNat &&& 0x0F) [c, d] =
      (lead.toNat % 0x10 * 0x40 + c.toNat % 0x40) * 0x40 + d.toNat % 0x40 := by
    rw [contBits_cons, contBits_cons, contBits_nil, hmask]
  have hr : InRange (if lead.toNat = 0xE0 then 0xA0 else 0x80) (if lead.toNat = 0xED then 0x9F else 0xBF) [c, d] := by
    refine ⟨?_, ?_, hd1.1, hd1.2, trivial⟩
    · split_ifs <;> omega
    · split_ifs <;> omega
  rw [← scalarUnits_bmp (by omega)] at h
  cases h
  exact .sequence hlead rfl hr rest

theorem runFour_spec {window : List UInt8} {units : List UInt16} {count : ℕ} {lead : UInt8} (h1 : 0xF0 ≤ lead.toNat)
    (h2 : lead.toNat ≤ 0xF4) (h : runFour lead.toNat window = some (units, count)) :
    TakesScalars (lead :: window) units count := by
  have hlead : utf8Lead lead.toNat = some (lead.toNat &&& 0x07, 4, if lead.toNat = 0xF0 then 0x90 else 0x80,
      if lead.toNat = 0xF4 then 0x8F else 0xBF) := by
    rw [utf8Lead, if_neg (by omega), if_neg (by simp; omega), if_neg (by simp; omega), if_pos (by simp; omega)]
  rcases window with _ | ⟨c, _ | ⟨d, _ | ⟨e, rest⟩⟩⟩
  · cases h
  · cases h
  · cases h
  rw [runFour, contBits_four] at h
  split_ifs at h with hc
  simp only [Bool.and_eq_true, isCont_iff, Bool.not_eq_true', Bool.or_eq_false_iff, decide_eq_false_iff_not] at hc
  obtain ⟨⟨⟨hc1, hd1⟩, he1⟩, hcp⟩ := hc
  have hmask : lead.toNat &&& 0x07 = lead.toNat % 0x08 := Nat.and_two_pow_sub_one_eq_mod _ 3
  have hval : contBits (lead.toNat &&& 0x07) [c, d, e] =
      ((lead.toNat % 0x08 * 0x40 + c.toNat % 0x40) * 0x40 + d.toNat % 0x40) * 0x40 + e.toNat % 0x40 := by
    rw [contBits_cons, contBits_cons, contBits_cons, contBits_nil, hmask]
  have hr : InRange (if lead.toNat = 0xF0 then 0x90 else 0x80) (if lead.toNat = 0xF4 then 0x8F else 0xBF) [c, d, e] := by
    refine ⟨?_, ?_, hd1.1, hd1.2, he1.1, he1.2, trivial⟩
    · split_ifs <;> omega
    · split_ifs <;> omega
  have hunits : scalarUnits (contBits (lead.toNat &&& 0x07) [c, d, e]) = emitPair _ := if_neg (by omega)
  rw [← hunits] at h
  cases h
  exact .sequence hlead rfl hr rest

theorem runUtf16_spec {window : List UInt8} {units : List UInt16} {count : ℕ} (h : runUtf16 window = some (units, count)) :
    TakesScalars window units count := by
  cases window with
  | nil => cases h
  | cons lead window =>
    rw [runUtf16] at h
    simp only [Bool.and_eq_true, decide_eq_true_eq] at h
    split_ifs at h with h1 h2 h3 h4
    · cases h
      exact TakesScalars.ascii _
    · exact runTwo_spec h2.1 h2.2 h
    · exact runThree_spec h3.1 h3.2 h
    · exact runFour_spec h4.1 h4.2 h

theorem pairRun_spec : ∀ window : List UInt8,
    TakesScalars window ((pairUnits (pairRun window) window).map UInt8.toUInt16) (2 * pairRun window) := by
  intro window
  induction window using pairRun.induct with
  | case1 lead cont rest h ih =>
    rw [pairRun, if_pos h, Nat.add_comm 1, Nat.mul_add, Nat.add_comm _ (2 * 1)]
    rw [Bool.and_eq_true, isLatin1Lead_iff, isCont_iff] at h
    have hlead : utf8Lead lead.toNat = some (lead.toNat &&& 0x1F, 2, 0x80, 0xBF) := by
      rw [utf8Lead, if_neg (by omega), if_pos (by simp; omega)]
    have h3 : lead.toNat &&& 3 = lead.toNat % 4 := Nat.and_two_pow_sub_one_eq_mod _ 2
    have h5 : lead.toNat &&& 0x1F = lead.toNat % 0x20 := Nat.and_two_pow_sub_one_eq_mod _ 5
    have hval : ((lead.toNat &&& 3) <<< 6) ||| (cont.toNat &&& 0x3F) = contBits (lead.toNat &&& 0x1F) [cont] := by
      rw [contBits_two, contBits_cons, contBits_cons, contBits_nil, contBits_nil]
      omega
    have hlt : contBits (lead.toNat &&& 0x1F) [cont] < 0x100 := by
      rw [contBits_cons, contBits_nil]
      omega
    have hr : InRange 0x80 0xBF [cont] := ⟨h.2.1, h.2.2, trivial⟩
    have hone := TakesScalars.sequence hlead rfl hr rest
    rw [scalarUnits_bmp (by omega), ← toUInt16_ofNat hlt, ← hval] at hone
    exact hone.trans ih
  | case2 lead cont rest h =>
    rw [pairRun, if_neg h]
    exact TakesScalars.stop _
  | case3 window h =>
    rcases window with _ | ⟨a, _ | ⟨b, rest⟩⟩
    · exact TakesScalars.stop _
    · exact TakesScalars.stop _
    · exact absurd rfl (h a b rest)

theorem runLatin1_spec {window : List UInt8} {count : ℕ} {units : List UInt8} (h : runLatin1 window = some (units, count)) :
    TakesScalars window (units.map UInt8.toUInt16) count := by
  cases window with
  | nil => cases h
  | cons lead window =>
    rw [runLatin1] at h
    dsimp only at h
    split_ifs at h with h1 h2 h3
    · cases h
      exact TakesScalars.ascii _
    · cases h
      exact pairRun_spec _

theorem decodeRuns_spec {α : Type} {run : List UInt8 → Option (List α × ℕ)} (widen : α → UInt16)
    (hrun : ∀ {window units count}, run window = some (units, count) → TakesScalars window (units.map widen) count)
    (fuel : ℕ) (window : List UInt8) :
    TakesScalars window ((decodeRuns run fuel window).1.map widen) (decodeRuns run fuel window).2 := by
  induction fuel generalizing window with
  | zero => exact TakesScalars.stop window
  | succ fuel ih =>
    rw [decodeRuns]
    cases h : run window with
    | none => exact TakesScalars.stop window
    | some result =>
      rw [map_append]
      exact (hrun h).trans (ih _)

theorem utf16Units_length_le {ss : List ℕ} (hs : ∀ s ∈ ss, IsScalar s) :
    (utf16Units ss).length ≤ (ss.flatMap utf8Bytes).length := by
  induction ss with
  | nil => exact le_rfl
  | cons s ss ih =>
    have hone : (scalarUnits s).length ≤ (utf8Bytes s).length := by
      have hscalar := hs s (mem_cons_self ..)
      by_cases hb : s ≤ 0xFFFF
      · rw [scalarUnits, if_pos hb]
        exact length_pos_iff.2 (utf8Bytes_ne_nil hscalar)
      · rw [scalarUnits, if_neg hb, utf8Bytes_four (by omega) (by unfold IsScalar at hscalar; omega), emitPair]
        simp
    have := ih fun t ht => hs t (mem_cons_of_mem _ ht)
    rw [utf16Units] at this ⊢
    rw [flatMap_cons, flatMap_cons, length_append, length_append]
    omega

/-- **A decode run** takes the bytes of scalars and stays within the capacity. -/
theorem decodeRun_spec {buffer : MalTextBuffer} (hok : buffer.Ok) (halloc : buffer.allocated = true) (bytes : List UInt8) :
    ∃ ss, (∀ s ∈ ss, IsScalar s) ∧ bytes = ss.flatMap utf8Bytes ++ (decodeRun buffer bytes).2 ∧
      (decodeRun buffer bytes).1.units = buffer.units ++ utf16Units ss ∧ (decodeRun buffer bytes).1.Ok := by
  have hroom := hok.room halloc
  -- the window is a prefix, so what is taken from it is taken from the bytes
  have hfin : ∀ (data : TextData) (new : List UInt16) (count : ℕ), data.units = buffer.units ++ new →
      TakesScalars (bytes.take (buffer.capacity - buffer.length)) new count →
      ∃ ss, (∀ s ∈ ss, IsScalar s) ∧ bytes = ss.flatMap utf8Bytes ++ bytes.drop count ∧
        ({ buffer with data := data } : MalTextBuffer).units = buffer.units ++ utf16Units ss ∧
        ({ buffer with data := data } : MalTextBuffer).Ok := by
    rintro data new count hdata ⟨ss, rest, hs, hwin, rfl, rfl⟩
    have hlen : (ss.flatMap utf8Bytes).length ≤ (bytes.take (buffer.capacity - buffer.length)).length := by
      rw [hwin, length_append]
      exact Nat.le_add_right _ _
    rw [length_take] at hlen
    have htake : bytes.take (ss.flatMap utf8Bytes).length = ss.flatMap utf8Bytes := by
      have h := congrArg (List.take (ss.flatMap utf8Bytes).length) hwin
      rwa [take_take, Nat.min_eq_left (by omega), take_left] at h
    refine ⟨ss, hs, ?_, hdata, hok.status, hok.capacity, fun _ => ?_, fun hf => ?_⟩
    · conv_lhs => rw [← take_append_drop (ss.flatMap utf8Bytes).length bytes, htake]
    · have := utf16Units_length_le hs
      change data.units.length ≤ buffer.capacity
      rw [hdata, length_append]
      change buffer.length + _ ≤ _
      omega
    · exact absurd (halloc.symm.trans hf) (by simp)
  unfold decodeRun
  cases hdata : buffer.data with
  | utf16 units =>
    have hspec := decodeRuns_spec id (fun h => by rw [map_id]; exact runUtf16_spec h)
      (bytes.take (buffer.capacity - buffer.length)).length (bytes.take (buffer.capacity - buffer.length))
    rw [map_id] at hspec
    exact hfin _ _ _ (by rw [MalTextBuffer.units, hdata]; rfl) hspec
  | latin1 units =>
    have hspec := decodeRuns_spec UInt8.toUInt16 runLatin1_spec
      (bytes.take (buffer.capacity - buffer.length)).length (bytes.take (buffer.capacity - buffer.length))
    exact hfin _ _ _ (by rw [MalTextBuffer.units, hdata]; exact map_append) hspec

/-! ## The whole input -/

theorem decode_prefix {ss : List ℕ} (hs : ∀ s ∈ ss, IsScalar s) (rest : List UInt8) :
    (utf8DecodeReport (ss.flatMap utf8Bytes ++ rest)).1 = utf16Units ss ++ (utf8DecodeReport rest).1 ∧
      (utf8DecodeReport (ss.flatMap utf8Bytes ++ rest)).2 = (utf8DecodeReport rest).2 := by
  rw [utf8DecodeReport_append ss hs]
  exact ⟨rfl, rfl⟩

theorem decode_ascii {run : List UInt8} (hrun : ∀ u ∈ run, isAscii u = true) (rest : List UInt8) :
    (utf8DecodeReport (run ++ rest)).1 = run.map UInt8.toUInt16 ++ (utf8DecodeReport rest).1 ∧
      (utf8DecodeReport (run ++ rest)).2 = (utf8DecodeReport rest).2 := by
  obtain ⟨h1, h2, h3⟩ := ascii_scalars hrun
  have h := decode_prefix h1 rest
  rwa [h2, h3] at h

theorem storeScalar_spec {buffer : MalTextBuffer} {cp : ℕ} (hok : buffer.Ok)
    (hle : buffer.length + (scalarUnits cp).length ≤ stringMaxCodeUnits) :
    let width := if cp > 0xFFFF then 2 else 1
    let reserved := reserveScalar buffer cp width
    reserved.status = .ok ∧ ({ reserved with data := storeScalar reserved.data cp width } : MalTextBuffer).Ok ∧
      ({ reserved with data := storeScalar reserved.data cp width } : MalTextBuffer).units =
        buffer.units ++ scalarUnits cp := by
  have hwidth : (scalarUnits cp).length = if cp > 0xFFFF then 2 else 1 := by
    unfold scalarUnits
    split_ifs <;> first | rfl | omega
  rw [hwidth] at hle
  set width := if cp > 0xFFFF then 2 else 1 with hw
  have hpos : 0 < width := by rw [hw]; split_ifs <;> omega
  -- room, in an encoding that holds the scalar
  obtain ⟨wide, hp, henc⟩ : ∃ wide, MalTextBuffer.Prepared buffer width wide (reserveScalar buffer cp width) ∧
      ((reserveScalar buffer cp width).isUtf16 = true ∨ cp ≤ 0xFF) := by
    unfold reserveScalar
    by_cases hpromote : (decide (cp > 0xFF) && !buffer.isUtf16) = true
    · rw [if_pos hpromote]
      have hp := MalTextBuffer.prepare_spec hok hpos hle true
      exact ⟨true, hp, .inl (hp.isUtf16.trans (Bool.or_true _))⟩
    have hnarrow : buffer.isUtf16 = true ∨ cp ≤ 0xFF := by
      cases hu : buffer.isUtf16 with
      | true => exact .inl rfl
      | false => exact .inr (by simpa [hu] using hpromote)
    split_ifs with hroom
    · have hp := MalTextBuffer.prepare_spec hok hpos hle false
      exact ⟨false, hp, hnarrow.imp (fun hu => hp.isUtf16.trans (by rw [hu]; rfl)) id⟩
    · simp only [Bool.or_eq_true, Bool.not_eq_true', decide_eq_true_eq, not_or, Bool.not_eq_false] at hroom
      exact ⟨false, ⟨hok, rfl, (Bool.or_false _).symm, hroom.1, by omega⟩, hnarrow⟩
  set reserved := reserveScalar buffer cp width
  have hstore : (storeScalar reserved.data cp width).units = reserved.data.units ++ scalarUnits cp ∧
      (storeScalar reserved.data cp width).isUtf16 = reserved.data.isUtf16 := by
    cases hd : reserved.data with
    | utf16 units =>
      refine ⟨congrArg (units ++ ·) ?_, rfl⟩
      unfold scalarUnits
      split_ifs at hw ⊢ <;> first | rfl | omega
    | latin1 units =>
      have hcp : cp ≤ 0xFF := by
        refine henc.resolve_left ?_
        rw [MalTextBuffer.isUtf16, hd]
        exact Bool.false_ne_true
      refine ⟨?_, rfl⟩
      rw [scalarUnits_bmp (by omega), ← toUInt16_ofNat (by omega)]
      exact map_append
  have happ := MalTextBuffer.Prepared.write (hwidth ▸ hp) hstore.1 hstore.2
  exact ⟨hp.ok.status, happ.ok, happ.units⟩

/-- the bytes decoded behind the buffer's units, and whether any of them are ill formed -/
structure Decoded (bytes : List UInt8) (buffer : MalTextBuffer) (hadError : Bool) (result : MalTextBuffer × Bool) :
    Prop where
  ok : result.1.Ok
  units : result.1.units = buffer.units ++ (utf8DecodeReport bytes).1
  error : result.2 = (hadError || (utf8DecodeReport bytes).2)

theorem Decoded.nil {buffer : MalTextBuffer} (hok : buffer.Ok) (hadError : Bool) :
    Decoded [] buffer hadError (buffer, hadError) :=
  ⟨hok, (append_nil _).symm, (Bool.or_false _).symm⟩

section

variable {bytes rest : List UInt8} {buffer buffer' : MalTextBuffer} {units : List UInt16}
  (hd : (utf8DecodeReport bytes).1 = units ++ (utf8DecodeReport rest).1) (hunits : buffer'.units = buffer.units ++ units)
include hd hunits

theorem Decoded.after {hadError hadError' : Bool} {result : MalTextBuffer × Bool}
    (he : (hadError || (utf8DecodeReport bytes).2) = (hadError' || (utf8DecodeReport rest).2))
    (h : Decoded rest buffer' hadError' result) : Decoded bytes buffer hadError result :=
  ⟨h.ok, by rw [h.units, hunits, hd, append_assoc], h.error.trans he.symm⟩

theorem length_after : buffer'.length + (utf8DecodeReport rest).1.length =
    buffer.length + (utf8DecodeReport bytes).1.length := by
  rw [hd, MalTextBuffer.length, hunits, length_append, length_append, Nat.add_assoc]
  rfl

end

theorem fromUtf8Loop_spec (fuel : ℕ) (bytes : List UInt8) (buffer : MalTextBuffer) (hadError : Bool)
    (hlen : bytes.length ≤ fuel) (hok : buffer.Ok)
    (hmax : buffer.length + (utf8DecodeReport bytes).1.length ≤ stringMaxCodeUnits) :
    Decoded bytes buffer hadError (fromUtf8Loop fuel bytes buffer hadError) := by
  induction fuel generalizing bytes buffer hadError with
  | zero =>
    rw [length_eq_zero_iff.1 (Nat.le_zero.1 hlen)]
    exact .nil hok hadError
  | succ fuel ih =>
    rw [fromUtf8Loop]
    by_cases hnil : bytes = []
    · rw [hnil]
      exact .nil hok hadError
    rw [if_neg (by simp [hnil, hok.status])]
    -- the run, or nothing while there is no storage
    obtain ⟨buffer', rest, hfirst, ss, hs, hbytes, hunits, hok'⟩ : ∃ buffer' rest,
        (if buffer.allocated then decodeRun buffer bytes else (buffer, bytes)) = (buffer', rest) ∧
          ∃ ss, (∀ s ∈ ss, IsScalar s) ∧ bytes = ss.flatMap utf8Bytes ++ rest ∧
            buffer'.units = buffer.units ++ utf16Units ss ∧ buffer'.Ok := by
      split_ifs with halloc
      · obtain ⟨ss, h1, h2, h3, h4⟩ := decodeRun_spec hok halloc bytes
        exact ⟨_, _, rfl, ss, h1, h2, h3, h4⟩
      · exact ⟨_, _, rfl, [], nofun, rfl, (append_nil _).symm, hok⟩
    obtain ⟨hd, he⟩ := decode_prefix hs rest
    rw [← hbytes] at hd he
    have hmax' := (length_after hd hunits).trans_le hmax
    have hshort : rest.length ≤ bytes.length := by
      rw [hbytes, length_append]
      exact Nat.le_add_left _ _
    rw [hfirst]
    refine .after hd hunits (by rw [he]) ?_
    dsimp only
    by_cases hrest : rest = []
    · rw [hrest]
      exact .nil hok' hadError
    rw [if_neg hrest]
    by_cases hrun : scan isAscii rest = 0
    · rw [if_neg (not_not.2 hrun)]
      have hread := utf8DecodeReport_read hrest
      have hpos := utf8ReadScalar_pos hrest
      rcases hscalar : utf8ReadScalar rest with ⟨cp, n, bad⟩
      rw [hscalar] at hread hpos
      have hlength := congrArg (·.1.length) hread
      dsimp only at hread hlength hpos ⊢
      rw [length_append] at hlength
      obtain ⟨hst, hok'', hunits'⟩ := storeScalar_spec hok' (by omega : buffer'.length + (scalarUnits cp).length ≤ _)
      rw [if_neg (not_not.2 hst)]
      have hd' := congrArg Prod.fst hread
      exact .after hd' hunits' (by rw [hread, Bool.or_assoc])
        (ih _ _ _ (by rw [length_drop]; omega) hok'' ((length_after hd' hunits').trans_le hmax'))
    · rw [if_pos hrun]
      obtain ⟨hd', he'⟩ := decode_ascii (scan_ascii rest) (rest.drop (scan isAscii rest))
      rw [take_append_drop] at hd' he'
      have hlength := congrArg List.length hd'
      rw [length_append, length_map] at hlength
      have happ := MalTextBuffer.appendLatin1_spec hok' (rest.take (scan isAscii rest)) (by omega)
      exact .after hd' happ.units (by rw [he'])
        (ih _ _ _ (by rw [length_drop]; omega) happ.ok ((length_after hd' happ.units).trans_le hmax'))

theorem hintCapacity_spec {hint : ℕ} (hle : hint ≤ stringMaxCodeUnits) :
    (MalTextBuffer.empty.hintCapacity hint).Ok ∧ (MalTextBuffer.empty.hintCapacity hint).units = [] := by
  have hlen : MalTextBuffer.empty.length = 0 := rfl
  rw [MalTextBuffer.hintCapacity, if_neg (by decide), if_neg (by decide), if_neg (by simp; omega)]
  dsimp only
  split_ifs with h1 h2
  · exact ⟨⟨rfl, by decide, nofun, fun _ => rfl⟩, rfl⟩
  · exact ⟨⟨rfl, by dsimp only; omega, nofun, fun _ => rfl⟩, rfl⟩
  · exact ⟨MalTextBuffer.ok_empty, rfl⟩

theorem stringFromUtf8Report_units (bytes : List UInt8) (hlimit : (utf8DecodeReport bytes).1.length ≤ stringMaxCodeUnits) :
    ∃ string, stringFromUtf8Report bytes = ⟨some string, (utf8DecodeReport bytes).2, .ok⟩ ∧
      string.units = (utf8DecodeReport bytes).1 := by
  unfold stringFromUtf8Report
  rw [asciiRunEnd_eq]
  dsimp only
  obtain ⟨ha1, ha2⟩ := decode_ascii (scan_ascii bytes) (bytes.drop (scan isAscii bytes))
  rw [take_append_drop] at ha1 ha2
  by_cases hall : scan isAscii bytes = bytes.length
  · -- ASCII only
    rw [if_pos hall]
    rw [hall, take_length, drop_length] at ha1
    rw [hall, drop_length] at ha2
    have hlen := congrArg List.length ha1
    rw [length_append, length_map] at hlen
    rw [if_neg (by omega), ha2]
    exact ⟨.latin1 bytes, rfl, ha1.symm ▸ (append_nil _).symm⟩
  rw [if_neg hall]
  set hint := if scan isAscii bytes + (bytes.length - scan isAscii bytes) / 2 > stringMaxCodeUnits
    then stringMaxCodeUnits else scan isAscii bytes + (bytes.length - scan isAscii bytes) / 2 with hhint
  obtain ⟨hok, hunits⟩ := hintCapacity_spec (by rw [hhint]; split_ifs <;> omega : hint ≤ stringMaxCodeUnits)
  have hlen := congrArg List.length ha1
  rw [length_append, length_map] at hlen
  have hempty : (MalTextBuffer.empty.hintCapacity hint).length = 0 := by rw [MalTextBuffer.length, hunits]; rfl
  have happ := MalTextBuffer.appendLatin1_spec hok (bytes.take (scan isAscii bytes)) (by omega)
  have hloop := Decoded.after ha1 happ.units (by rw [ha2]) (fromUtf8Loop_spec bytes.length _ _ false
    (by rw [length_drop]; omega) happ.ok ((length_after ha1 happ.units).trans_le (by omega)))
  rw [if_pos hloop.ok.status]
  exact ⟨_, by rw [hloop.error, Bool.false_or], hloop.units.trans (by rw [hunits, nil_append])⟩

/-- **Decoding into compact storage.** Within the string limit the string holds exactly the units of the reference decoder,
with its error flag; and the reference decoder reads well-formed sequences as their scalars and each maximal ill-formed
subpart as one U+FFFD. -/
theorem stringFromUtf8Report_exact (bytes : List UInt8)
    (hlimit : (utf8DecodeReport bytes).1.length ≤ stringMaxCodeUnits) :
    (∃ string, stringFromUtf8Report bytes = ⟨some string, (utf8DecodeReport bytes).2, .ok⟩ ∧
      string.units = (utf8DecodeReport bytes).1) ∧
    ∃ ss bad, Decodes bytes ss bad ∧ utf8DecodeReport bytes = (utf16Units ss, bad) :=
  ⟨stringFromUtf8Report_units bytes hlimit, utf8DecodeReport_decodes bytes⟩

/-- a truncated three-byte sequence between an ASCII byte and a Latin-1 pair -/
theorem stringFromUtf8Report_exact_truncated :
    stringFromUtf8Report [0x61, 0xE2, 0x82, 0xC3, 0xA9] = ⟨some (.utf16 [0x61, 0xFFFD, 0xE9]), true, .ok⟩ ∧
      utf8DecodeReport [0x61, 0xE2, 0x82, 0xC3, 0xA9] = ([0x61, 0xFFFD, 0xE9], true) := by
  obtain ⟨⟨string, hstring, -⟩, -⟩ := stringFromUtf8Report_exact [0x61, 0xE2, 0x82, 0xC3, 0xA9] (by decide)
  have hreport : utf8DecodeReport [0x61, 0xE2, 0x82, 0xC3, 0xA9] = ([0x61, 0xFFFD, 0xE9], true) := by decide
  cases hstring
  exact ⟨rfl, hreport⟩

end Maligator.Text
