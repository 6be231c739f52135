/-
UTF-8 decoding with replacement: `mal_utf8_read_scalar` and the reference decoder `mal_utf8_decode_report`.

The meaning is said with the encoder. A byte sequence is well formed when it is the bytes of a scalar (`utf8Bytes`), and an
initial part of one (`IsStart`) is what a maximal ill-formed subpart is: `Decodes` reads a byte sequence as scalars, where a
position with no well-formed sequence gives U+FFFD for the longest start there, or for one byte.

`utf8ReadScalar_spec`: one scalar, or one maximal subpart.
`utf8DecodeReport_decodes`: the whole input.
`utf8DecodeReport_append`: bytes of scalars in front are decoded to them.
-/
import Maligator.Text.Utf8

namespace Maligator.Text

open List

/-! ## mal_utf8_read_scalar -/

/-- what the first byte says: its bits, the length of the sequence and the range of the second byte -/
def utf8Lead (b : ℕ) : Option (ℕ × ℕ × ℕ × ℕ) :=
  if b < 0x80 then some (b, 1, 0x80, 0xBF)
  else if 0xC2 ≤ b && b ≤ 0xDF then some (b &&& 0x1F, 2, 0x80, 0xBF)
  else if 0xE0 ≤ b && b ≤ 0xEF then some (b &&& 0x0F, 3, if b = 0xE0 then 0xA0 else 0x80, if b = 0xED then 0x9F else 0xBF)
  else if 0xF0 ≤ b && b ≤ 0xF4 then some (b &&& 0x07, 4, if b = 0xF0 then 0x90 else 0x80, if b = 0xF4 then 0x8F else 0xBF)
  else none

/-- the bytes after the first; the range of the one at hand is `minimum` to `maximum` -/
def utf8Continue (minimum maximum : ℕ) : ℕ → ℕ → ℕ → List UInt8 → ℕ × ℕ × Bool
  | 0, cp, consumed, _ => (cp, consumed, false)
  | _ + 1, _, consumed, [] => (0xFFFD, consumed, true)
  | n + 1, cp, consumed, cont :: rest =>
    if cont.toNat < minimum || cont.toNat > maximum then (0xFFFD, consumed, true)
    else utf8Continue 0x80 0xBF n ((cp <<< 6) ||| (cont.toNat &&& 0x3F)) (consumed + 1) rest

/-- the scalar at the front of nonempty bytes, how many bytes it takes, and whether they are ill formed -/
def utf8ReadScalar : List UInt8 → ℕ × ℕ × Bool
  | [] => (0xFFFD, 1, true)
  | b :: rest =>
    match utf8Lead b.toNat with
    | none => (0xFFFD, 1, true)
    | some (cp, n, secondMin, secondMax) => utf8Continue secondMin secondMax (n - 1) cp 1 rest

/-! ## mal_utf8_decode_report -/

/-- the loop; the fuel is the number of bytes left -/
def utf8DecodeLoop : ℕ → List UInt8 → List UInt16 → Bool → List UInt16 × Bool
  | 0, _, out, hadError => (out, hadError)
  | fuel + 1, bytes, out, hadError =>
    if bytes = [] then (out, hadError)
    else
      let (cp, n, bad) := utf8ReadScalar bytes
      utf8DecodeLoop fuel (bytes.drop n) (out ++ scalarUnits cp) (hadError || bad)

def utf8DecodeReport (bytes : List UInt8) : List UInt16 × Bool := utf8DecodeLoop bytes.length bytes [] false

/-! ## Well-formed sequences -/

def IsScalar (s : ℕ) : Prop := s < 0xD800 ∨ (0xDFFF < s ∧ s ≤ 0x10FFFF)

def utf8Bytes (s : ℕ) : List UInt8 := utf8WriteScalar s (utf8ScalarWidth s)

def IsStart (p : List UInt8) : Prop := ∃ s, IsScalar s ∧ p <+: utf8Bytes s

/-- the ill-formed bytes in front of `rest` that one U+FFFD stands for -/
structure MaximalSubpart (subpart rest : List UInt8) : Prop where
  nonempty : subpart ≠ []
  illFormed : ∀ s, IsScalar s → ¬ utf8Bytes s <+: subpart ++ rest
  start : subpart.length = 1 ∨ IsStart subpart
  longest : ∀ p, p <+: subpart ++ rest → IsStart p → p.length ≤ subpart.length

/-- the scalars of a byte sequence, and whether any of it is ill formed -/
inductive Decodes : List UInt8 → List ℕ → Bool → Prop
  | nil : Decodes [] [] false
  | scalar {s : ℕ} {rest : List UInt8} {ss : List ℕ} {bad : Bool} :
    IsScalar s → Decodes rest ss bad → Decodes (utf8Bytes s ++ rest) (s :: ss) bad
  | replace {subpart rest : List UInt8} {ss : List ℕ} {bad : Bool} :
    MaximalSubpart subpart rest → Decodes rest ss bad → Decodes (subpart ++ rest) (0xFFFD :: ss) true

/-! ## Bits as arithmetic -/

variable {a cp lo hi capacity : ℕ} {b : UInt8} {conts p : List UInt8}

theorem or_eq_add {b : ℕ} (i k : ℕ) (ha : a = 2 ^ i * k) (hb : b < 2 ^ i) : a ||| b = a + b := by
  rw [ha, Nat.two_pow_add_eq_or_of_lt hb]

theorem mask_eq_mod (x : ℕ) : x &&& 0x3F = x % 0x40 := Nat.and_two_pow_sub_one_eq_mod x 6

theorem cont_eq (x : ℕ) : 0x80 ||| (x &&& 0x3F) = 0x80 + x % 0x40 := by
  rw [mask_eq_mod]
  exact or_eq_add 6 2 rfl (Nat.mod_lt _ (by omega))

variable {s : ℕ}

theorem utf8Bytes_one (h : s < 0x80) : utf8Bytes s = [UInt8.ofNat s] := by
  rw [utf8Bytes, utf8ScalarWidth, if_pos h]
  rfl

theorem utf8Bytes_two (h1 : 0x80 ≤ s) (h2 : s < 0x800) :
    utf8Bytes s = [UInt8.ofNat (0xC0 + s / 0x40), UInt8.ofNat (0x80 + s % 0x40)] := by
  have hlead : 0xC0 ||| (s >>> 6) = 0xC0 + s / 0x40 := by
    rw [Nat.shiftRight_eq_div_pow]
    exact or_eq_add 6 3 rfl (by omega)
  rw [utf8Bytes, utf8ScalarWidth, if_neg (by omega), if_pos h2, utf8WriteScalar, if_neg (by omega), if_pos rfl, hlead, cont_eq]

theorem utf8Bytes_three (h1 : 0x800 ≤ s) (h2 : s < 0x10000) : utf8Bytes s =
    [UInt8.ofNat (0xE0 + s / 0x1000), UInt8.ofNat (0x80 + s / 0x40 % 0x40), UInt8.ofNat (0x80 + s % 0x40)] := by
  have hlead : 0xE0 ||| (s >>> 12) = 0xE0 + s / 0x1000 := by
    rw [Nat.shiftRight_eq_div_pow]
    exact or_eq_add 5 7 rfl (by omega)
  rw [utf8Bytes, utf8ScalarWidth, if_neg (by omega), if_neg (by omega), if_pos h2, utf8WriteScalar, if_neg (by omega),
    if_neg (by omega), if_pos rfl, hlead, cont_eq, cont_eq, Nat.shiftRight_eq_div_pow]

theorem utf8Bytes_four (h1 : 0x10000 ≤ s) (h2 : s ≤ 0x10FFFF) : utf8Bytes s =
    [UInt8.ofNat (0xF0 + s / 0x40000), UInt8.ofNat (0x80 + s / 0x1000 % 0x40), UInt8.ofNat (0x80 + s / 0x40 % 0x40),
      UInt8.ofNat (0x80 + s % 0x40)] := by
  have hlead : 0xF0 ||| (s >>> 18) = 0xF0 + s / 0x40000 := by
    rw [Nat.shiftRight_eq_div_pow]
    exact or_eq_add 4 15 rfl (by omega)
  rw [utf8Bytes, utf8ScalarWidth, if_neg (by omega), if_neg (by omega), if_neg (by omega), utf8WriteScalar, if_neg (by omega),
    if_neg (by omega), if_neg (by omega), hlead, cont_eq, cont_eq, cont_eq, Nat.shiftRight_eq_div_pow,
    Nat.shiftRight_eq_div_pow]

/-! ## Sequences by their first byte -/

def InRange (minimum maximum : ℕ) : List UInt8 → Prop
  | [] => True
  | c :: cs => minimum ≤ c.toNat ∧ c.toNat ≤ maximum ∧ InRange 0x80 0xBF cs

def contBits (cp : ℕ) (conts : List UInt8) : ℕ := conts.foldl (fun cp c => (cp <<< 6) ||| (c.toNat &&& 0x3F)) cp

theorem contBits_nil (cp : ℕ) : contBits cp [] = cp := rfl

theorem contBits_cons (cp : ℕ) (c : UInt8) (cs : List UInt8) :
    contBits cp (c :: cs) = contBits (cp * 0x40 + c.toNat % 0x40) cs := by
  have h : (cp <<< 6) ||| (c.toNat &&& 0x3F) = cp * 0x40 + c.toNat % 0x40 := by
    rw [Nat.shiftLeft_eq, mask_eq_mod]
    exact or_eq_add 6 cp (Nat.mul_comm _ _) (Nat.mod_lt _ (by omega))
  rw [contBits, foldl_cons, h, contBits]

variable {n : ℕ} {bytes : List UInt8}

theorem utf8Lead_cases {b : ℕ} (h : utf8Lead b = some (cp, n, lo, hi)) :
    (b < 0x80 ∧ cp = b ∧ n = 1 ∧ lo = 0x80 ∧ hi = 0xBF) ∨
    (0xC2 ≤ b ∧ b ≤ 0xDF ∧ cp = b - 0xC0 ∧ n = 2 ∧ lo = 0x80 ∧ hi = 0xBF) ∨
    (0xE0 ≤ b ∧ b ≤ 0xEF ∧ cp = b - 0xE0 ∧ n = 3 ∧ (lo = if b = 0xE0 then 0xA0 else 0x80) ∧
      (hi = if b = 0xED then 0x9F else 0xBF)) ∨
    (0xF0 ≤ b ∧ b ≤ 0xF4 ∧ cp = b - 0xF0 ∧ n = 4 ∧ (lo = if b = 0xF0 then 0x90 else 0x80) ∧
      (hi = if b = 0xF4 then 0x8F else 0xBF)) := by
  have h5 : b &&& 0x1F = b % 0x20 := Nat.and_two_pow_sub_one_eq_mod b 5
  have h4 : b &&& 0x0F = b % 0x10 := Nat.and_two_pow_sub_one_eq_mod b 4
  have h3 : b &&& 0x07 = b % 0x08 := Nat.and_two_pow_sub_one_eq_mod b 3
  rw [utf8Lead, h3] at h
  simp only [Bool.and_eq_true, decide_eq_true_eq] at h
  by_cases hb1 : b < 0x80
  · rw [if_pos hb1] at h
    cases h
    exact .inl ⟨hb1, rfl, rfl, rfl, rfl⟩
  rw [if_neg hb1] at h
  by_cases hb2 : 0xC2 ≤ b ∧ b ≤ 0xDF
  · rw [if_pos hb2] at h
    cases h
    exact .inr (.inl ⟨hb2.1, hb2.2, by omega, rfl, rfl, rfl⟩)
  rw [if_neg hb2] at h
  by_cases hb3 : 0xE0 ≤ b ∧ b ≤ 0xEF
  · rw [if_pos hb3] at h
    cases h
    exact .inr (.inr (.inl ⟨hb3.1, hb3.2, by omega, rfl, rfl, rfl⟩))
  rw [if_neg hb3] at h
  by_cases hb4 : 0xF0 ≤ b ∧ b ≤ 0xF4
  · rw [if_pos hb4] at h
    cases h
    exact .inr (.inr (.inr ⟨hb4.1, hb4.2, by omega, rfl, rfl, rfl⟩))
  rw [if_neg hb4] at h
  cases h

theorem toNat_byte (h : n < 256) : (UInt8.ofNat n).toNat = n := UInt8.toNat_ofNat_of_lt' h

theorem ofNat_eq (h : n = b.toNat) : UInt8.ofNat n = b := by rw [h, UInt8.ofNat_toNat]

theorem lead_full (h : utf8Lead b.toNat = some (cp, n, lo, hi))
    (hlen : conts.length + 1 = n) (hr : InRange lo hi conts) :
    IsScalar (contBits cp conts) ∧ utf8Bytes (contBits cp conts) = b :: conts := by
  rcases utf8Lead_cases h with ⟨hb, hcp, hn, -, -⟩ | ⟨hb1, hb2, hcp, hn, hlo, hhi⟩ | ⟨hb1, hb2, hcp, hn, hlo, hhi⟩ |
    ⟨hb1, hb2, hcp, hn, hlo, hhi⟩
  all_goals
    rw [hn] at hlen
    rw [hcp]
  · obtain rfl : conts = [] := length_eq_zero_iff.1 (by omega)
    rw [contBits, foldl_nil, utf8Bytes_one hb, UInt8.ofNat_toNat]
    exact ⟨.inl (by omega), rfl⟩
  · match conts, hlen with
    | [c], _ =>
      obtain ⟨h1, h2, -⟩ := hr
      rw [contBits_cons, contBits_nil]
      refine ⟨.inl (by omega), ?_⟩
      rw [utf8Bytes_two (by omega) (by omega), ofNat_eq (by omega : _ = b.toNat), ofNat_eq (by omega : _ = c.toNat)]
  · match conts, hlen with
    | [c, d], _ =>
      obtain ⟨h1, h2, h3, h4, -⟩ := hr
      rw [contBits_cons, contBits_cons, contBits_nil]
      set s := ((b.toNat - 0xE0) * 0x40 + c.toNat % 0x40) * 0x40 + d.toNat % 0x40 with hs
      have hbounds : 0x800 ≤ s ∧ s < 0x10000 ∧ IsScalar s := by
        unfold IsScalar
        split_ifs at hlo hhi <;> omega
      refine ⟨hbounds.2.2, ?_⟩
      rw [utf8Bytes_three hbounds.1 hbounds.2.1, ofNat_eq (by split_ifs at hlo hhi <;> omega : _ = b.toNat),
        ofNat_eq (by split_ifs at hlo hhi <;> omega : _ = c.toNat), ofNat_eq (by omega : _ = d.toNat)]
  · match conts, hlen with
    | [c, d, e], _ =>
      obtain ⟨h1, h2, h3, h4, h5, h6, -⟩ := hr
      rw [contBits_cons, contBits_cons, contBits_cons, contBits_nil]
      set s := (((b.toNat - 0xF0) * 0x40 + c.toNat % 0x40) * 0x40 + d.toNat % 0x40) * 0x40 + e.toNat % 0x40 with hs
      have hbounds : 0x10000 ≤ s ∧ s ≤ 0x10FFFF := by split_ifs at hlo hhi <;> omega
      refine ⟨.inr ⟨by omega, hbounds.2⟩, ?_⟩
      rw [utf8Bytes_four hbounds.1 hbounds.2, ofNat_eq (by split_ifs at hlo hhi <;> omega : _ = b.toNat),
        ofNat_eq (by split_ifs at hlo hhi <;> omega : _ = c.toNat), ofNat_eq (by omega : _ = d.toNat),
        ofNat_eq (by omega : _ = e.toNat)]

theorem utf8Bytes_lead (h : IsScalar s) : ∃ (b : UInt8) (conts : List UInt8) (cp n lo hi : ℕ),
    utf8Bytes s = b :: conts ∧ utf8Lead b.toNat = some (cp, n, lo, hi) ∧ conts.length + 1 = n ∧ InRange lo hi conts ∧
      contBits cp conts = s := by
  unfold IsScalar at h
  by_cases h1 : s < 0x80
  · refine ⟨UInt8.ofNat s, [], s, 1, 0x80, 0xBF, utf8Bytes_one h1, ?_, rfl, trivial, rfl⟩
    rw [toNat_byte (by omega), utf8Lead, if_pos h1]
  by_cases h2 : s < 0x800
  · have hmask : (0xC0 + s / 0x40) &&& 0x1F = (0xC0 + s / 0x40) % 0x20 := Nat.and_two_pow_sub_one_eq_mod _ 5
    refine ⟨_, _, (0xC0 + s / 0x40) &&& 0x1F, 2, 0x80, 0xBF, utf8Bytes_two (by omega) h2, ?_, rfl, ?_, ?_⟩
    · rw [toNat_byte (by omega), utf8Lead, if_neg (by omega), if_pos (by simp; omega)]
    · rw [InRange, toNat_byte (by omega)]
      exact ⟨by omega, by omega, trivial⟩
    · rw [contBits_cons, contBits_nil, toNat_byte (by omega)]
      omega
  by_cases h3 : s < 0x10000
  · have hmask : (0xE0 + s / 0x1000) &&& 0x0F = (0xE0 + s / 0x1000) % 0x10 := Nat.and_two_pow_sub_one_eq_mod _ 4
    refine ⟨_, _, (0xE0 + s / 0x1000) &&& 0x0F, 3, if 0xE0 + s / 0x1000 = 0xE0 then 0xA0 else 0x80,
      if 0xE0 + s / 0x1000 = 0xED then 0x9F else 0xBF, utf8Bytes_three (by omega) h3, ?_, rfl, ?_, ?_⟩
    · rw [toNat_byte (by omega), utf8Lead, if_neg (by omega), if_neg (by simp; omega), if_pos (by simp; omega)]
    · rw [InRange, InRange, toNat_byte (by omega), toNat_byte (by omega)]
      exact ⟨by split_ifs <;> omega, by split_ifs <;> omega, by omega, by omega, trivial⟩
    · rw [contBits_cons, contBits_cons, contBits_nil, toNat_byte (by omega), toNat_byte (by omega)]
      omega
  have hmask : (0xF0 + s / 0x40000) &&& 0x07 = (0xF0 + s / 0x40000) % 0x08 := Nat.and_two_pow_sub_one_eq_mod _ 3
  refine ⟨_, _, (0xF0 + s / 0x40000) &&& 0x07, 4, if 0xF0 + s / 0x40000 = 0xF0 then 0x90 else 0x80,
    if 0xF0 + s / 0x40000 = 0xF4 then 0x8F else 0xBF, utf8Bytes_four (by omega) (by omega), ?_, rfl, ?_, ?_⟩
  · rw [toNat_byte (by omega), utf8Lead, if_neg (by omega), if_neg (by simp; omega), if_neg (by simp; omega),
      if_pos (by simp; omega)]
  · rw [InRange, InRange, InRange, toNat_byte (by omega), toNat_byte (by omega), toNat_byte (by omega)]
    exact ⟨by split_ifs <;> omega, by split_ifs <;> omega, by omega, by omega, by omega, by omega, trivial⟩
  · rw [contBits_cons, contBits_cons, contBits_cons, contBits_nil, toNat_byte (by omega), toNat_byte (by omega),
      toNat_byte (by omega)]
    omega

theorem InRange.of_prefix : ∀ {lo hi : ℕ}, InRange lo hi conts → p <+: conts → InRange lo hi p := by
  induction conts generalizing p with
  | nil => intro lo hi h hp; rw [prefix_nil.1 hp]; exact h
  | cons c cs ih =>
    intro lo hi h hp
    cases p with
    | nil => trivial
    | cons d p =>
      obtain ⟨rfl, hrest⟩ := cons_prefix_cons.1 hp
      exact ⟨h.1, h.2.1, ih h.2.2 hrest⟩

theorem InRange.extend (m : ℕ) : ∀ {lo hi : ℕ} {conts : List UInt8}, lo ≤ hi → hi < 256 → conts.length ≤ m →
    InRange lo hi conts → ∃ ext, ext.length = m ∧ conts <+: ext ∧ InRange lo hi ext := by
  induction m with
  | zero =>
    intro lo hi conts _ _ hlen _
    rw [length_eq_zero_iff.1 (Nat.le_zero.1 hlen)]
    exact ⟨[], rfl, prefix_refl _, trivial⟩
  | succ m ih =>
    intro lo hi conts hle hlt hlen h
    cases conts with
    | nil =>
      obtain ⟨ext, hext, -, hr⟩ := @ih 0x80 0xBF [] (by omega) (by omega) (Nat.zero_le m) trivial
      refine ⟨UInt8.ofNat lo :: ext, by rw [length_cons, hext], nil_prefix, ?_⟩
      rw [InRange, toNat_byte (by omega)]
      exact ⟨le_rfl, hle, hr⟩
    | cons c cs =>
      obtain ⟨ext, hext, hp, hr⟩ := ih (by omega : 0x80 ≤ 0xBF) (by omega) (Nat.le_of_succ_le_succ hlen) h.2.2
      exact ⟨c :: ext, by rw [length_cons, hext], (prefix_cons_inj c).2 hp, h.1, h.2.1, hr⟩

theorem isStart_cons_iff (b : UInt8) (conts : List UInt8) : IsStart (b :: conts) ↔
    ∃ cp n lo hi, utf8Lead b.toNat = some (cp, n, lo, hi) ∧ conts.length < n ∧ InRange lo hi conts := by
  constructor
  · rintro ⟨s, hs, hp⟩
    obtain ⟨b', full, cp, n, lo, hi, heq, hlead, hlen, hr, -⟩ := utf8Bytes_lead hs
    rw [heq] at hp
    obtain ⟨rfl, hrest⟩ := cons_prefix_cons.1 hp
    exact ⟨cp, n, lo, hi, hlead, by have := hrest.length_le; omega, hr.of_prefix hrest⟩
  rintro ⟨cp, n, lo, hi, hlead, hlen, hr⟩
  have hlohi : lo ≤ hi ∧ hi < 256 := by
    rcases utf8Lead_cases hlead with ⟨-, -, -, h1, h2⟩ | ⟨-, -, -, -, h1, h2⟩ | ⟨-, -, -, -, h1, h2⟩ | ⟨-, -, -, -, h1, h2⟩
    · omega
    · omega
    · split_ifs at h1 h2 <;> omega
    · split_ifs at h1 h2 <;> omega
  obtain ⟨ext, hext, hp, hr'⟩ := InRange.extend (n - 1) hlohi.1 hlohi.2 (by omega) hr
  obtain ⟨hs, hbytes⟩ := lead_full hlead (by omega) hr'
  exact ⟨_, hs, by rw [hbytes]; exact (prefix_cons_inj b).2 hp⟩

theorem utf8Continue_spec (n lo hi cp consumed : ℕ) (rest : List UInt8) :
    (∃ conts tail, rest = conts ++ tail ∧ conts.length = n ∧ InRange lo hi conts ∧
      utf8Continue lo hi n cp consumed rest = (contBits cp conts, consumed + n, false)) ∨
    (∃ conts tail, rest = conts ++ tail ∧ conts.length < n ∧ InRange lo hi conts ∧
      (∀ p, p <+: rest → InRange lo hi p → p.length ≤ conts.length) ∧
      utf8Continue lo hi n cp consumed rest = (0xFFFD, consumed + conts.length, true)) := by
  induction n generalizing lo hi cp consumed rest with
  | zero => exact .inl ⟨[], rest, rfl, rfl, trivial, by rw [utf8Continue]; rfl⟩
  | succ n ih =>
    cases rest with
    | nil =>
      exact .inr ⟨[], [], rfl, Nat.succ_pos n, trivial, fun p hp _ => by rw [prefix_nil.1 hp], by rw [utf8Continue]; rfl⟩
    | cons c rest =>
      rw [utf8Continue]
      split_ifs with hbad
      · rw [Bool.or_eq_true, decide_eq_true_eq, decide_eq_true_eq] at hbad
        refine .inr ⟨[], c :: rest, rfl, Nat.succ_pos n, trivial, fun p hp hr => ?_, rfl⟩
        cases p with
        | nil => exact le_rfl
        | cons d p =>
          obtain ⟨rfl, -⟩ := cons_prefix_cons.1 hp
          obtain ⟨h1, h2, -⟩ := hr
          omega
      rw [Bool.or_eq_true, decide_eq_true_eq, decide_eq_true_eq] at hbad
      rcases ih 0x80 0xBF ((cp <<< 6) ||| (c.toNat &&& 0x3F)) (consumed + 1) rest with
        ⟨conts, tail, rfl, hlen, hr, heq⟩ | ⟨conts, tail, rfl, hlen, hr, hmax, heq⟩
      · refine .inl ⟨c :: conts, tail, rfl, by rw [length_cons, hlen], ⟨by omega, by omega, hr⟩, ?_⟩
        rw [heq, Nat.add_right_comm]
        rfl
      refine .inr ⟨c :: conts, tail, rfl, by rw [length_cons]; omega, ⟨by omega, by omega, hr⟩,
        fun p hp hpr => ?_, ?_⟩
      · cases p with
        | nil => exact Nat.zero_le _
        | cons d p =>
          obtain ⟨rfl, hrest⟩ := cons_prefix_cons.1 hp
          exact Nat.succ_le_succ (hmax p hrest hpr.2.2)
      · rw [heq, length_cons, Nat.add_right_comm, Nat.add_assoc]

theorem utf8ReadScalar_spec (hne : bytes ≠ []) :
    (∃ s rest, IsScalar s ∧ bytes = utf8Bytes s ++ rest ∧ utf8ReadScalar bytes = (s, (utf8Bytes s).length, false)) ∨
    (∃ subpart rest, MaximalSubpart subpart rest ∧ bytes = subpart ++ rest ∧
      utf8ReadScalar bytes = (0xFFFD, subpart.length, true)) := by
  obtain ⟨b, rest, rfl⟩ := exists_cons_of_ne_nil hne
  rw [utf8ReadScalar]
  -- starts at b are short
  have hbound : ∀ (conts : List UInt8) (k : ℕ), (∀ p, p <+: conts → IsStart (b :: p) → p.length ≤ k) →
      ∀ p, p <+: b :: conts → IsStart p → p.length ≤ k + 1 := by
    intro conts k h p hp hstart
    cases p with
    | nil => exact Nat.zero_le _
    | cons d p =>
      obtain ⟨rfl, hrest⟩ := cons_prefix_cons.1 hp
      exact Nat.succ_le_succ (h p hrest hstart)
  cases hlead : utf8Lead b.toNat with
  | none =>
    have hno : ∀ p, ¬ IsStart (b :: p) := fun p hstart => by
      obtain ⟨cp, n, lo, hi, h, -⟩ := (isStart_cons_iff b p).1 hstart
      cases hlead.symm.trans h
    refine .inr ⟨[b], rest, ⟨cons_ne_nil _ _, fun s hs hp => ?_, .inl rfl, ?_⟩, rfl, rfl⟩
    · obtain ⟨b', conts, _, _, _, _, heq, -⟩ := utf8Bytes_lead hs
      rw [heq] at hp
      obtain ⟨rfl, -⟩ := cons_prefix_cons.1 hp
      exact hno conts ⟨s, hs, [], by rw [append_nil, heq]⟩
    · exact hbound rest 0 fun p _ hstart => absurd hstart (hno p)
  | some lead =>
    obtain ⟨cp, n, lo, hi⟩ := lead
    have hn : 0 < n := by
      rcases utf8Lead_cases hlead with h | h | h | h <;> omega
    dsimp only
    rcases utf8Continue_spec (n - 1) lo hi cp 1 rest with ⟨conts, tail, rfl, hlen, hr, heq⟩ |
      ⟨conts, tail, rfl, hlen, hr, hmax, heq⟩
    · obtain ⟨hs, hbytes⟩ := lead_full hlead (by omega) hr
      refine .inl ⟨contBits cp conts, tail, hs, by rw [hbytes]; rfl, ?_⟩
      rw [heq, hbytes, length_cons, hlen, Nat.add_comm]
    refine .inr ⟨b :: conts, tail, ⟨cons_ne_nil _ _, fun s hs hp => ?_, .inr ?_, ?_⟩, rfl, ?_⟩
    · obtain ⟨b', full, cp', n', lo', hi', hfull, hlead', hlen', hr', -⟩ := utf8Bytes_lead hs
      rw [hfull] at hp
      obtain ⟨rfl, hrest⟩ := cons_prefix_cons.1 hp
      cases hlead.symm.trans hlead'
      have := hmax full hrest hr'
      omega
    · exact (isStart_cons_iff b conts).2 ⟨cp, n, lo, hi, hlead, by omega, hr⟩
    · refine hbound (conts ++ tail) conts.length fun p hp hstart => ?_
      obtain ⟨cp', n', lo', hi', hlead', hlen', hr'⟩ := (isStart_cons_iff b p).1 hstart
      cases hlead.symm.trans hlead'
      exact hmax p hp hr'
    · rw [heq, length_cons, Nat.add_comm]

theorem utf8Bytes_ne_nil (hs : IsScalar s) : utf8Bytes s ≠ [] := by
  obtain ⟨b, conts, _, _, _, _, hb, -⟩ := utf8Bytes_lead hs
  rw [hb]
  exact cons_ne_nil _ _

theorem utf8ReadScalar_part (hne : bytes ≠ []) : ∃ cp part rest bad, bytes = part ++ rest ∧ part ≠ [] ∧
    utf8ReadScalar bytes = (cp, part.length, bad) ∧
      ∀ {ss bad'}, Decodes rest ss bad' → Decodes bytes (cp :: ss) (bad || bad') := by
  rcases utf8ReadScalar_spec hne with ⟨s, rest, hs, rfl, heq⟩ | ⟨subpart, rest, hsub, rfl, heq⟩
  · exact ⟨s, _, rest, false, rfl, utf8Bytes_ne_nil hs, heq, .scalar hs⟩
  · exact ⟨0xFFFD, _, rest, true, rfl, hsub.nonempty, heq, .replace hsub⟩

theorem utf8ReadScalar_pos (hne : bytes ≠ []) : 0 < (utf8ReadScalar bytes).2.1 := by
  obtain ⟨_, _, _, _, _, hpart, heq, -⟩ := utf8ReadScalar_part hne
  rw [heq]
  exact length_pos_iff.2 hpart

/-! ## The whole input -/

def utf16Units (ss : List ℕ) : List UInt16 := ss.flatMap scalarUnits

theorem utf8DecodeLoop_spec (fuel : ℕ) (bytes : List UInt8) (out : List UInt16) (hadError : Bool)
    (h : bytes.length ≤ fuel) : ∃ ss bad, Decodes bytes ss bad ∧
      utf8DecodeLoop fuel bytes out hadError = (out ++ utf16Units ss, hadError || bad) := by
  induction fuel generalizing bytes out hadError with
  | zero =>
    rw [length_eq_zero_iff.1 (Nat.le_zero.1 h)]
    exact ⟨[], false, .nil, by simp [utf8DecodeLoop, utf16Units]⟩
  | succ fuel ih =>
    rw [utf8DecodeLoop]
    by_cases hne : bytes = []
    · exact ⟨[], false, hne ▸ .nil, by simp [hne, utf16Units]⟩
    rw [if_neg hne]
    obtain ⟨cp, part, rest, bad, rfl, hpart, heq, hstep⟩ := utf8ReadScalar_part hne
    have hpos := length_pos_iff.2 hpart
    rw [length_append] at h
    obtain ⟨ss, bad', hd, hloop⟩ := ih rest (out ++ scalarUnits cp) (hadError || bad) (by omega)
    refine ⟨cp :: ss, bad || bad', hstep hd, ?_⟩
    rw [heq]
    dsimp only
    rw [drop_left, hloop]
    simp [utf16Units, Bool.or_assoc]

theorem utf8DecodeReport_decodes (bytes : List UInt8) :
    ∃ ss bad, Decodes bytes ss bad ∧ utf8DecodeReport bytes = (utf16Units ss, bad) := by
  obtain ⟨ss, bad, hd, hloop⟩ := utf8DecodeLoop_spec bytes.length bytes [] false le_rfl
  exact ⟨ss, bad, hd, by rw [utf8DecodeReport, hloop, nil_append, Bool.false_or]⟩

/-! ## Well-formed input -/

theorem utf8ReadScalar_bytes (hs : IsScalar s) (rest : List UInt8) :
    utf8ReadScalar (utf8Bytes s ++ rest) = (s, (utf8Bytes s).length, false) := by
  obtain ⟨b, conts, cp, n, lo, hi, hb, hlead, hlen, hr, hval⟩ := utf8Bytes_lead hs
  rw [hb, cons_append, utf8ReadScalar, hlead]
  dsimp only
  rcases utf8Continue_spec (n - 1) lo hi cp 1 (conts ++ rest) with ⟨conts', tail, heq, hlen', hr', hres⟩ |
    ⟨conts', tail, heq, hlen', hr', hmax, hres⟩
  · obtain ⟨rfl, -⟩ := append_inj heq (by omega)
    rw [hres, length_cons]
    congr 2
    omega
  · have := hmax conts (prefix_append conts rest) hr
    omega

theorem utf8DecodeLoop_append (fuel : ℕ) (bytes : List UInt8) (out : List UInt16) (hadError : Bool) :
    utf8DecodeLoop fuel bytes out hadError =
      (out ++ (utf8DecodeLoop fuel bytes [] false).1, hadError || (utf8DecodeLoop fuel bytes [] false).2) := by
  induction fuel generalizing bytes out hadError with
  | zero => simp [utf8DecodeLoop]
  | succ fuel ih =>
    rw [utf8DecodeLoop, utf8DecodeLoop]
    split_ifs with hne
    · simp
    rcases utf8ReadScalar bytes with ⟨cp, n, bad⟩
    dsimp only
    rw [ih _ (out ++ scalarUnits cp), ih _ ([] ++ scalarUnits cp)]
    simp [Bool.or_assoc]

theorem utf8DecodeLoop_fuel (fuel : ℕ) (bytes : List UInt8) (out : List UInt16) (hadError : Bool)
    (hle : bytes.length ≤ fuel) :
    utf8DecodeLoop fuel bytes out hadError = utf8DecodeLoop bytes.length bytes out hadError := by
  induction fuel using Nat.strong_induction_on generalizing bytes out hadError with
  | _ fuel ih =>
    cases bytes with
    | nil => cases fuel <;> rfl
    | cons b rest =>
      obtain ⟨fuel, rfl⟩ : ∃ k, fuel = k + 1 := ⟨fuel - 1, by rw [length_cons] at hle; omega⟩
      rw [length_cons] at hle ⊢
      rw [utf8DecodeLoop, utf8DecodeLoop, if_neg (cons_ne_nil b rest), if_neg (cons_ne_nil b rest)]
      have hn := utf8ReadScalar_pos (cons_ne_nil b rest)
      rcases hread : utf8ReadScalar (b :: rest) with ⟨cp, n, bad⟩
      rw [hread] at hn
      dsimp only at hn ⊢
      have hshort : ((b :: rest).drop n).length ≤ rest.length := by rw [length_drop, length_cons]; omega
      rw [ih fuel (by omega) _ _ _ (by omega), ih rest.length (by omega) _ _ _ hshort]

theorem utf8DecodeReport_read (hne : bytes ≠ []) : utf8DecodeReport bytes =
      (scalarUnits (utf8ReadScalar bytes).1 ++ (utf8DecodeReport (bytes.drop (utf8ReadScalar bytes).2.1)).1,
        (utf8ReadScalar bytes).2.2 || (utf8DecodeReport (bytes.drop (utf8ReadScalar bytes).2.1)).2) := by
  have hn := utf8ReadScalar_pos hne
  obtain ⟨b, rest, rfl⟩ := exists_cons_of_ne_nil hne
  rw [utf8DecodeReport, length_cons, utf8DecodeLoop, if_neg hne]
  rcases hread : utf8ReadScalar (b :: rest) with ⟨cp, n, bad⟩
  rw [hread] at hn
  dsimp only at hn ⊢
  have hshort : ((b :: rest).drop n).length ≤ rest.length := by rw [length_drop, length_cons]; omega
  rw [utf8DecodeLoop_append, utf8DecodeLoop_fuel _ _ _ _ hshort, utf8DecodeReport, nil_append, Bool.false_or]

theorem utf8DecodeReport_append (ss : List ℕ) (hs : ∀ s ∈ ss, IsScalar s) (rest : List UInt8) :
    utf8DecodeReport (ss.flatMap utf8Bytes ++ rest) =
      (utf16Units ss ++ (utf8DecodeReport rest).1, (utf8DecodeReport rest).2) := by
  induction ss with
  | nil => rfl
  | cons s ss ih =>
    have hscalar := hs s (mem_cons_self ..)
    rw [flatMap_cons, append_assoc, utf8DecodeReport_read fun h => utf8Bytes_ne_nil hscalar (append_eq_nil_iff.1 h).1,
      utf8ReadScalar_bytes hscalar]
    rw [drop_left, ih fun t ht => hs t (mem_cons_of_mem _ ht)]
    simp [utf16Units]

/-! ## Encoding and back -/

def hasNoLoneSurrogate : List UInt16 → Bool
  | [] => true
  | [first] => !isSurrogate first
  | first :: second :: rest =>
    if isPair first second then hasNoLoneSurrogate rest else !isSurrogate first && hasNoLoneSurrogate (second :: rest)

theorem scalarUnits_replaceLone {unit : UInt16} (h : isSurrogate unit = false) :
    IsScalar (replaceLone unit) ∧ scalarUnits (replaceLone unit) = [unit] := by
  have hlt := unit.toNat_lt
  have heq : replaceLone unit = unit.toNat := by rw [replaceLone, h, if_neg Bool.false_ne_true]
  have hrange : unit.toNat < 0xD800 ∨ 0xDFFF < unit.toNat := by
    simp only [isSurrogate, Bool.and_eq_false_iff, decide_eq_false_iff_not] at h
    omega
  rw [heq, scalarUnits, if_pos (by omega), UInt16.ofNat_toNat]
  refine ⟨?_, rfl⟩
  unfold IsScalar
  omega

theorem scalars_wellFormed {units : List UInt16} (h : hasNoLoneSurrogate units = true) :
    (∀ s ∈ (scalars units).map Prod.fst, IsScalar s) ∧ utf16Units ((scalars units).map Prod.fst) = units := by
  induction units using hasNoLoneSurrogate.induct with
  | case1 => exact ⟨fun _ h => by simp [scalars] at h, rfl⟩
  | case2 first =>
    obtain ⟨h1, h2⟩ := scalarUnits_replaceLone (by simpa [hasNoLoneSurrogate] using h)
    exact ⟨fun s hs => by
      obtain rfl : s = replaceLone first := by simpa [scalars] using hs
      exact h1, by simp [scalars, utf16Units, h2]⟩
  | case3 first second rest hp ih =>
    rw [hasNoLoneSurrogate, if_pos hp] at h
    obtain ⟨h1, h2⟩ := ih h
    have hrange := composePair_range hp
    rw [scalars_pair hp, map_cons, forall_mem_cons]
    refine ⟨⟨.inr (by dsimp only; omega), h1⟩, ?_⟩
    rw [utf16Units, flatMap_cons, scalarUnits, if_neg (by dsimp only; omega), emitPair_composePair hp]
    exact congrArg (first :: second :: ·) h2
  | case4 first second rest hp ih =>
    rw [hasNoLoneSurrogate, if_neg hp, Bool.and_eq_true] at h
    obtain ⟨h1, h2⟩ := ih h.2
    obtain ⟨h3, h4⟩ := scalarUnits_replaceLone (by simpa using h.1)
    rw [scalars, if_neg hp, map_cons, forall_mem_cons, utf16Units, flatMap_cons, h4]
    exact ⟨⟨h3, h1⟩, congrArg (first :: ·) h2⟩

theorem fit_of_le : ∀ {ss : List (ℕ × ℕ)}, byteCount ss ≤ capacity → fit capacity ss = ss := by
  intro ss
  induction ss generalizing capacity with
  | nil => exact fun _ => rfl
  | cons s ss ih =>
    intro h
    rw [byteCount_cons] at h
    rw [fit, if_pos (by omega), ih (by omega)]

theorem unitCount_scalars (units : List UInt16) : unitCount (scalars units) = units.length := by
  induction units using scalars.induct with
  | case1 => rfl
  | case2 first => rfl
  | case3 first second rest hp ih =>
    rw [scalars_pair hp]
    simp only [unitCount, map_cons, sum_cons, length_cons] at *
    omega
  | case4 first second rest hp ih =>
    rw [scalars, if_neg hp]
    simp only [unitCount, map_cons, sum_cons, length_cons] at *
    omega

/-- **Bounded encoding.** Whatever the leaves, the segmented encoder writes and counts what the flat one does: the longest
run of whole scalars that fits. The counter gives the bytes of the whole string, and decoding them gives the string back. -/
theorem utf8_encoding_exact (s : Segmentation) (capacity : ℕ) :
    stringUtf8EncodeInto s capacity = utf8EncodeInto s.flat capacity ∧
    (∃ p, IsLongestFit capacity (scalars s.flat) p ∧
      utf8EncodeInto s.flat capacity = ⟨scalarBytes p, unitCount p, byteCount p⟩) ∧
    (∀ unbounded, stringUtf8Length s ≤ unbounded → (utf8EncodeInto s.flat unbounded).written = stringUtf8Length s ∧
      (utf8EncodeInto s.flat unbounded).read = s.flat.length ∧
      (hasNoLoneSurrogate s.flat = true →
        utf8DecodeReport (stringUtf8EncodeInto s unbounded).output = (s.flat, false))) := by
  have hflat : ∀ c, utf8EncodeInto s.flat c = ⟨scalarBytes (fit c (scalars s.flat)), unitCount (fit c (scalars s.flat)),
      byteCount (fit c (scalars s.flat))⟩ := fun c => by
    rw [utf8EncodeInto_eq, encodeFit_eq]
    simp [Encoded.empty]
  have hsame : ∀ c, stringUtf8EncodeInto s c = utf8EncodeInto s.flat c := fun c => by
    rw [stringUtf8EncodeInto_eq, utf8EncodeInto_eq]
  refine ⟨hsame capacity, ⟨fit capacity (scalars s.flat), fit_isLongestFit _ _, hflat capacity⟩, fun unbounded hle => ?_⟩
  rw [stringUtf8Length_eq] at hle ⊢
  rw [hsame, hflat, fit_of_le hle]
  refine ⟨rfl, unitCount_scalars _, fun hwf => ?_⟩
  obtain ⟨hscalar, hunits⟩ := scalars_wellFormed hwf
  have hbytes : scalarBytes (scalars s.flat) = ((scalars s.flat).map Prod.fst).flatMap utf8Bytes ++ [] := by
    rw [append_nil, flatMap_map]
    rfl
  rw [hbytes, utf8DecodeReport_append _ hscalar, hunits]
  exact Prod.ext (append_nil _) rfl

/-- a pair whose halves are in different leaves, into four bytes -/
theorem utf8_encoding_exact_split_pair :
    stringUtf8EncodeInto ⟨[.utf16 [0xD83D], .utf16 [0xDE00]], by decide⟩ 4 = ⟨[0xF0, 0x9F, 0x98, 0x80], 2, 4⟩ ∧
      utf8DecodeReport [0xF0, 0x9F, 0x98, 0x80] = ([0xD83D, 0xDE00], false) := by
  have h := utf8_encoding_exact ⟨[.utf16 [0xD83D], .utf16 [0xDE00]], by decide⟩ 4
  have hbytes : utf8EncodeInto [0xD83D, 0xDE00] 4 = ⟨[0xF0, 0x9F, 0x98, 0x80], 2, 4⟩ := by decide
  have heq := h.1.trans hbytes
  have hround := (h.2.2 4 (by decide)).2.2 (by decide)
  rw [heq] at hround
  exact ⟨heq, hround⟩

end Maligator.Text
