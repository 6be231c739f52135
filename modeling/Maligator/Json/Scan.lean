/-
The run scanners of builtin_json.c, which look at eight bytes or four code units at a time.

JSON text may hold every code unit as it stands except the controls below U+0020, the quotation mark and the backslash
(`isPlain`); quoting stops at surrogates as well (`isSafe`), since those need pairing. The word tests report a borrow as
a hit, so a scanner may leave its word loop early; it never passes over a unit it should have stopped at.

`latin1SafeRun_eq`, `utf16UnescapedRun_eq`, `utf16SafeRun_eq`: each scanner stops at the first unit that is not
plain (not safe), whatever the lengths and alignments.
-/
import Maligator.Lib.Swar
import Maligator.Text.Units

namespace Maligator.Json

open Swar Text List

/-- a unit that JSON text holds as it stands -/
def isPlain (unit : UInt16) : Bool := 0x20 ≤ unit.toNat && unit.toNat ≠ 0x22 && unit.toNat ≠ 0x5C

def isSafe (unit : UInt16) : Bool := isPlain unit && !isSurrogate unit

/-! ## Words -/

/-- memcpy of eight bytes into a word, on a little-endian machine -/
def loadBytes (bytes : List UInt8) : UInt64 := UInt64.ofNat (pack 8 (bytes.map UInt8.toNat))

def loadUnits (units : List UInt16) : UInt64 := UInt64.ofNat (pack 16 (units.map UInt16.toNat))

def wordHasZero (word : UInt64) : Bool :=
  ((word - 0x0101010101010101) &&& ~~~word &&& 0x8080808080808080) != 0

def halfwordHasZero (word : UInt64) : Bool :=
  ((word - 0x0001000100010001) &&& ~~~word &&& 0x8000800080008000) != 0

/-- the word loop of mal_json_latin1_safe_run goes on -/
def latin1WordClear (bytes : List UInt8) : Bool :=
  let word := loadBytes bytes
  let control := ((word - 0x2020202020202020) &&& ~~~word &&& 0x8080808080808080) != 0
  !(control || wordHasZero (word ^^^ 0x2222222222222222) || wordHasZero (word ^^^ 0x5c5c5c5c5c5c5c5c))

/-- the word loop of mal_json_utf16_unescaped_run goes on -/
def utf16WordClear (units : List UInt16) : Bool :=
  let word := loadUnits units
  let control := ((word - 0x0020002000200020) &&& ~~~word &&& 0x8000800080008000) != 0
  !(control || halfwordHasZero (word ^^^ 0x0022002200220022) || halfwordHasZero (word ^^^ 0x005c005c005c005c))

/-- the word loop of mal_json_utf16_safe_run goes on -/
def utf16WordSafe (units : List UInt16) : Bool :=
  let word := loadUnits units
  let control := ((word - 0x0020002000200020) &&& ~~~word &&& 0x8000800080008000) != 0
  !(control || halfwordHasZero (word ^^^ 0x0022002200220022) || halfwordHasZero (word ^^^ 0x005c005c005c005c) ||
    halfwordHasZero ((word &&& 0xf800f800f800f800) ^^^ 0xd800d800d800d800))

/-! ## Scanners -/

def latin1SafeRun (units : List UInt8) : ℕ :=
  let position := skipBlocks 8 latin1WordClear units
  position + scan (fun unit => 0x20 ≤ unit.toNat && unit.toNat ≠ 0x22 && unit.toNat ≠ 0x5C) (units.drop position)

def utf16UnescapedRun (units : List UInt16) : ℕ :=
  let position := skipBlocks 4 utf16WordClear units
  position + scan isPlain (units.drop position)

def utf16SafeRun (units : List UInt16) : ℕ :=
  -- up to four scalar probes before the first word
  let probed := scan isSafe (units.take 4)
  if probed < (units.take 4).length then probed
  else
    let position := probed + skipBlocks 4 utf16WordSafe (units.drop probed)
    position + scan isSafe (units.drop position)

/-! ## The word tests miss nothing -/

section Words

variable {w n : ℕ} {lanes : List ℕ}

variable {word c top one q mask : UInt64} {k : ℕ}

theorem below_of_word (hwn : w * n = 64) (hc : c.toNat = splat w k n)
    (htop : top.toNat = splat w (2 ^ (w - 1)) n) (h : ((word - c) &&& ~~~word &&& top) = 0) :
    below w k n word.toNat = 0 := by
  have hz := congrArg UInt64.toNat h
  rw [UInt64.toNat_and, UInt64.toNat_and, UInt64.toNat_sub, hc, htop] at hz
  rw [below, hwn]
  simpa using hz

theorem toNat_load (hwn : w * n = 64) (hn : lanes.length = n) (hl : ∀ l ∈ lanes, l < 2 ^ w) :
    (UInt64.ofNat (pack w lanes)).toNat = pack w lanes := by
  have hlt := pack_lt hl
  rw [hn, hwn] at hlt
  exact UInt64.toNat_ofNat_of_lt' hlt

theorem le_of_word (hwn : w * n = 64) (hc : c.toNat = splat w k n)
    (htop : top.toNat = splat w (2 ^ (w - 1)) n) (hk : k ≤ 2 ^ (w - 1)) (hn : lanes.length = n)
    (hl : ∀ l ∈ lanes, l < 2 ^ w)
    (h : ((UInt64.ofNat (pack w lanes) - c) &&& ~~~(UInt64.ofNat (pack w lanes)) &&& top) = 0) : ∀ l ∈ lanes, k ≤ l := by
  have hw : 0 < w := Nat.pos_of_ne_zero (by rintro rfl; simp at hwn)
  have hz := below_of_word hwn hc htop h
  rw [toNat_load hwn hn hl, ← hn] at hz
  exact le_of_below_eq_zero hw hk hl hz

theorem ne_of_word (hwn : w * n = 64) (hone : one.toNat = splat w 1 n)
    (htop : top.toNat = splat w (2 ^ (w - 1)) n) (hq : q.toNat = splat w k n) (hk : k < 2 ^ w) (hn : lanes.length = n)
    (hl : ∀ l ∈ lanes, l < 2 ^ w)
    (h : (((UInt64.ofNat (pack w lanes) ^^^ q) - one) &&& ~~~(UInt64.ofNat (pack w lanes) ^^^ q) &&& top) = 0) :
    ∀ l ∈ lanes, l ≠ k := by
  have hw : 0 < w := Nat.pos_of_ne_zero (by rintro rfl; simp at hwn)
  have hz := below_of_word hwn hone htop h
  rw [UInt64.toNat_xor, toNat_load hwn hn hl, hq, ← hn] at hz
  exact ne_of_below_xor_eq_zero hw hk hl hz

theorem load_and (hwn : w * n = 64) (hmask : mask.toNat = splat w k n) (hk : k < 2 ^ w)
    (hn : lanes.length = n) (hl : ∀ l ∈ lanes, l < 2 ^ w) :
    UInt64.ofNat (pack w lanes) &&& mask = UInt64.ofNat (pack w (lanes.map (· &&& k))) := by
  rw [← UInt64.toNat_inj, UInt64.toNat_and, toNat_load hwn hn hl, hmask, ← hn, pack_and hk hl]
  refine (toNat_load hwn (by rw [length_map, hn]) fun l hmem => ?_).symm
  obtain ⟨a, -, rfl⟩ := mem_map.1 hmem
  exact Nat.and_lt_two_pow _ hk

end Words

theorem latin1WordClear_plain {block : List UInt8} (hlen : block.length = 8) (h : latin1WordClear block = true) :
    ∀ u ∈ block, 0x20 ≤ u.toNat ∧ u.toNat ≠ 0x22 ∧ u.toNat ≠ 0x5C := by
  have hn : (block.map UInt8.toNat).length = 8 := by rw [length_map, hlen]
  have hl : ∀ l ∈ block.map UInt8.toNat, l < 2 ^ 8 := by
    intro l hmem
    obtain ⟨u, -, rfl⟩ := mem_map.1 hmem
    exact u.toNat_lt
  simp only [latin1WordClear, wordHasZero, Bool.not_eq_true', Bool.or_eq_false_iff, bne_eq_false_iff_eq] at h
  obtain ⟨⟨hcontrol, hquote⟩, hslash⟩ := h
  intro u hu
  have hmem := mem_map_of_mem (f := UInt8.toNat) hu
  exact ⟨le_of_word rfl rfl rfl (by decide) hn hl hcontrol _ hmem, ne_of_word rfl rfl rfl rfl (by decide) hn hl hquote _ hmem,
    ne_of_word rfl rfl rfl rfl (by decide) hn hl hslash _ hmem⟩

variable {block : List UInt16} (units : List UInt16)

theorem unitLanes (hlen : block.length = 4) :
    (block.map UInt16.toNat).length = 4 ∧ ∀ l ∈ block.map UInt16.toNat, l < 2 ^ 16 := by
  refine ⟨by rw [length_map, hlen], fun l hmem => ?_⟩
  obtain ⟨u, -, rfl⟩ := mem_map.1 hmem
  exact u.toNat_lt

theorem isPlain_iff (u : UInt16) : isPlain u = true ↔ 0x20 ≤ u.toNat ∧ u.toNat ≠ 0x22 ∧ u.toNat ≠ 0x5C := by
  simp [isPlain, and_assoc]

theorem utf16WordClear_plain (hlen : block.length = 4) (h : utf16WordClear block = true) :
    ∀ u ∈ block, isPlain u = true := by
  obtain ⟨hn, hl⟩ := unitLanes hlen
  simp only [utf16WordClear, halfwordHasZero, Bool.not_eq_true', Bool.or_eq_false_iff, bne_eq_false_iff_eq] at h
  obtain ⟨⟨hcontrol, hquote⟩, hslash⟩ := h
  intro u hu
  have hmem := mem_map_of_mem (f := UInt16.toNat) hu
  exact (isPlain_iff u).2 ⟨le_of_word rfl rfl rfl (by decide) hn hl hcontrol _ hmem,
    ne_of_word rfl rfl rfl rfl (by decide) hn hl hquote _ hmem, ne_of_word rfl rfl rfl rfl (by decide) hn hl hslash _ hmem⟩

theorem and_of_surrogate {u : UInt16} (h : isSurrogate u = true) : u.toNat &&& 0xf800 = 0xd800 := by
  simp only [isSurrogate, Bool.and_eq_true, decide_eq_true_eq] at h
  rw [← Nat.mod_add_div (u.toNat &&& 0xf800) (2 ^ 11), Nat.and_mod_two_pow, Nat.and_div_two_pow,
    show u.toNat / 2 ^ 11 = 27 by omega, Nat.and_zero]
  decide

theorem utf16WordSafe_safe (hlen : block.length = 4) (h : utf16WordSafe block = true) :
    ∀ u ∈ block, isSafe u = true := by
  obtain ⟨hn, hl⟩ := unitLanes hlen
  have hclear : utf16WordClear block = true := by
    simp only [utf16WordSafe, Bool.not_or, Bool.and_eq_true] at h
    simp only [utf16WordClear, Bool.not_or, Bool.and_eq_true]
    exact h.1
  simp only [utf16WordSafe, halfwordHasZero, loadUnits, Bool.not_eq_true', Bool.or_eq_false_iff, bne_eq_false_iff_eq] at h
  have hpair := h.2
  rw [load_and (k := 0xf800) rfl rfl (by decide) hn hl] at hpair
  intro u hu
  rw [isSafe, utf16WordClear_plain hlen hclear u hu, Bool.true_and, Bool.not_eq_true', Bool.eq_false_iff]
  intro hs
  refine ne_of_word rfl rfl rfl rfl (by decide : 0xd800 < 2 ^ 16) (by rw [length_map, hn]) ?_ hpair _
    (mem_map_of_mem (f := (· &&& 0xf800)) (mem_map_of_mem (f := UInt16.toNat) hu)) (and_of_surrogate hs)
  intro l hmem
  obtain ⟨a, -, rfl⟩ := mem_map.1 hmem
  exact Nat.and_lt_two_pow _ (by decide)

/-! ## What the scanners stop at -/

theorem latin1SafeRun_eq (units : List UInt8) : latin1SafeRun units = scan isPlain (units.map UInt8.toUInt16) := by
  have hclear : ∀ block : List UInt8, block.length = 8 → latin1WordClear block = true →
      ∀ u ∈ block, (decide (0x20 ≤ u.toNat) && decide (u.toNat ≠ 0x22) && decide (u.toNat ≠ 0x5C)) = true := by
    intro block hlen h u hu
    simpa [and_assoc] using latin1WordClear_plain hlen h u hu
  rw [latin1SafeRun, skipBlocks_add_scan hclear, scan, scan, takeWhile_map, length_map]
  rfl

theorem utf16UnescapedRun_eq : utf16UnescapedRun units = scan isPlain units := by
  rw [utf16UnescapedRun, skipBlocks_add_scan fun _ hlen h => utf16WordClear_plain hlen h]

theorem utf16SafeRun_eq : utf16SafeRun units = scan isSafe units := by
  rw [utf16SafeRun]
  dsimp only
  have hsplit : units.take 4 ++ units.drop 4 = units := take_append_drop 4 units
  split_ifs with hshort
  · -- a probe stopped inside the first four
    have htake : ∀ run rest : List UInt16, scan isSafe run < run.length → scan isSafe (run ++ rest) = scan isSafe run := by
      intro run rest h
      rw [scan, takeWhile_append, if_neg (by rw [scan] at h; omega), scan]
    rw [← htake _ (units.drop 4) hshort, hsplit]
  have hall : scan isSafe (units.take 4) = (units.take 4).length := le_antisymm (scan_le _ _) (not_lt.1 hshort)
  have hsafe : ∀ u ∈ units.take 4, isSafe u = true := by
    have hpre : (units.take 4).takeWhile isSafe = units.take 4 := (List.takeWhile_prefix isSafe).eq_of_length hall
    exact List.takeWhile_eq_self_iff.1 hpre
  rw [hall, ← drop_drop, Nat.add_assoc, skipBlocks_add_scan fun _ hlen h => utf16WordSafe_safe hlen h,
    ← scan_append hsafe, length_take]
  rcases Nat.le_total 4 units.length with h4 | h4
  · rw [Nat.min_eq_left h4, hsplit]
  · rw [Nat.min_eq_right h4, drop_length, append_nil, take_of_length_le h4]

end Maligator.Json
