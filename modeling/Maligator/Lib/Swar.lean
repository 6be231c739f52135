/-
Several small lanes tested at once in one machine word, and scans that skip whole blocks.

A word is its lanes, lowest first (`pack`). The usual test for a lane below c subtracts c from every lane and looks for a top
bit that the subtraction has set; a borrow can set one too many, but never one too few:
`le_of_below_eq_zero`: when the test finds nothing, no lane is below c.
`skipBlocks_add_scan`: a scan that passes over blocks known to be clear and then goes element by element stops at the first
element that is not clear, wherever the test gave up.
-/
import Mathlib.Data.Nat.Bitwise
import Mathlib.Data.List.TakeWhile
import Mathlib.Tactic.Ring

namespace Maligator.Swar

open List

/-! ## Lanes -/

section Lanes

variable (w : ℕ)

def pack : List ℕ → ℕ
  | [] => 0
  | lane :: lanes => lane + 2 ^ w * pack lanes

def splat (lane n : ℕ) : ℕ := pack w (List.replicate n lane)

/-- (word - c...c) & ~word & 80...80, in words of n lanes -/
def below (c n word : ℕ) : ℕ :=
  (2 ^ (w * n) - splat w c n + word) % 2 ^ (w * n) &&& (2 ^ (w * n) - 1 - word) &&& splat w (2 ^ (w - 1)) n

variable {w}

variable {lanes : List ℕ} {c q : ℕ}

theorem pack_lt (h : ∀ l ∈ lanes, l < 2 ^ w) : pack w lanes < 2 ^ (w * lanes.length) := by
  induction lanes with
  | nil => simp [pack]
  | cons lane lanes ih =>
    have hlane := h lane (mem_cons_self ..)
    have hrest : pack w lanes + 1 ≤ 2 ^ (w * lanes.length) := ih fun l hl => h l (mem_cons_of_mem _ hl)
    calc pack w (lane :: lanes) < 2 ^ w + 2 ^ w * pack w lanes := by rw [pack]; omega
      _ = 2 ^ w * (pack w lanes + 1) := by ring
      _ ≤ 2 ^ w * 2 ^ (w * lanes.length) := Nat.mul_le_mul_left _ hrest
      _ = 2 ^ (w * (lane :: lanes).length) := by rw [← pow_add, length_cons, Nat.mul_succ, Nat.add_comm]

theorem splat_succ (c n : ℕ) : splat w c (n + 1) = c + 2 ^ w * splat w c n := rfl

theorem splat_le (hc : c < 2 ^ w) (n : ℕ) : splat w c n < 2 ^ (w * n) := by
  have h : pack w (List.replicate n c) < 2 ^ (w * (List.replicate n c).length) :=
    pack_lt fun l hl => (eq_of_mem_replicate hl).symm ▸ hc
  rwa [length_replicate] at h

theorem split_mod_div (lane rest : ℕ) (h : lane < 2 ^ w) :
    (lane + 2 ^ w * rest) % 2 ^ w = lane ∧ (lane + 2 ^ w * rest) / 2 ^ w = rest :=
  ⟨by rw [Nat.add_mul_mod_self_left, Nat.mod_eq_of_lt h],
    by rw [Nat.add_mul_div_left _ _ (Nat.two_pow_pos w), Nat.div_eq_of_lt h, Nat.zero_add]⟩

theorem compl_split {lane rest n : ℕ} (hlane : lane < 2 ^ w) (hrest : rest < 2 ^ (w * n)) :
    2 ^ (w * (n + 1)) - 1 - (lane + 2 ^ w * rest) = (2 ^ w - 1 - lane) + 2 ^ w * (2 ^ (w * n) - 1 - rest) := by
  have hpow : 2 ^ (w * (n + 1)) = 2 ^ w * 2 ^ (w * n) := by rw [Nat.mul_succ, pow_add, mul_comm]
  obtain ⟨d, hd⟩ := Nat.exists_eq_add_of_lt hrest
  have hn : 2 ^ (w * n) - 1 - rest = d := by omega
  rw [hpow, hn, hd, Nat.mul_add, Nat.mul_add]
  omega

theorem sub_split {lane rest s n : ℕ} (hle : c ≤ lane) (hlane : lane < 2 ^ w) (hs : s < 2 ^ (w * n)) :
    (2 ^ (w * (n + 1)) - (c + 2 ^ w * s) + (lane + 2 ^ w * rest)) % 2 ^ (w * (n + 1)) =
      (lane - c) + 2 ^ w * ((2 ^ (w * n) - s + rest) % 2 ^ (w * n)) := by
  have hpow : 2 ^ (w * (n + 1)) = 2 ^ w * 2 ^ (w * n) := by rw [Nat.mul_succ, pow_add, mul_comm]
  obtain ⟨d, hd⟩ := Nat.exists_eq_add_of_lt hs
  have hsum : 2 ^ (w * (n + 1)) - (c + 2 ^ w * s) + (lane + 2 ^ w * rest) =
      (lane - c) + 2 ^ w * (2 ^ (w * n) - s + rest) := by
    have h1 : 2 ^ (w * n) - s = d + 1 := by omega
    rw [hpow, h1, hd, Nat.mul_add, Nat.mul_add, Nat.mul_add, Nat.mul_add]
    omega
  have hlow : lane - c < 2 ^ w := by omega
  rw [hsum, hpow, Nat.mod_mul, (split_mod_div _ _ hlow).1, (split_mod_div _ _ hlow).2]

theorem top_of_lt {lane : ℕ} (hlt : lane < c) (hc : c ≤ 2 ^ (w - 1)) (hw : 0 < w) :
    ((2 ^ w - c + lane) % 2 ^ w &&& (2 ^ w - 1 - lane) &&& 2 ^ (w - 1)).testBit (w - 1) = true := by
  obtain ⟨k, rfl⟩ : ∃ k, w = k + 1 := ⟨w - 1, by omega⟩
  rw [Nat.add_sub_cancel] at *
  rw [Nat.mod_eq_of_lt (by omega), Nat.testBit_and, Nat.testBit_and, Nat.testBit_two_pow_self,
    Nat.testBit_of_two_pow_le_and_two_pow_add_one_gt (by omega) (by omega),
    Nat.testBit_of_two_pow_le_and_two_pow_add_one_gt (by omega) (by omega)]
  rfl

theorem le_of_below_eq_zero (hw : 0 < w) (hc : c ≤ 2 ^ (w - 1)) :
    ∀ {lanes : List ℕ}, (∀ l ∈ lanes, l < 2 ^ w) → below w c lanes.length (pack w lanes) = 0 → ∀ l ∈ lanes, c ≤ l := by
  have hcw : c < 2 ^ w := lt_of_le_of_lt hc (Nat.pow_lt_pow_right (by omega) (by omega))
  have htop : 2 ^ (w - 1) < 2 ^ w := Nat.pow_lt_pow_right (by omega) (by omega)
  intro lanes
  induction lanes with
  | nil => exact nofun
  | cons lane lanes ih =>
    intro hl hzero
    have hlane := hl lane (mem_cons_self ..)
    have hrest : ∀ l ∈ lanes, l < 2 ^ w := fun l h => hl l (mem_cons_of_mem _ h)
    rw [below, length_cons, pack, splat_succ, splat_succ] at hzero
    have hle : c ≤ lane := by
      by_contra hlt
      have hmod := congrArg (fun x => (x % 2 ^ w).testBit (w - 1)) hzero
      have hpow : 2 ^ (w * (lanes.length + 1)) = 2 ^ w * 2 ^ (w * lanes.length) := by rw [Nat.mul_succ, pow_add, mul_comm]
      have hs := splat_le hcw lanes.length
      have hlow : (2 ^ (w * (lanes.length + 1)) - (c + 2 ^ w * splat w c lanes.length) + (lane + 2 ^ w * pack w lanes)) %
          2 ^ (w * (lanes.length + 1)) % 2 ^ w = (2 ^ w - c + lane) % 2 ^ w := by
        obtain ⟨d, hd⟩ := Nat.exists_eq_add_of_lt hs
        rw [hpow, Nat.mod_mul_right_mod, hd]
        have : 2 ^ w * (splat w c lanes.length + d + 1) - (c + 2 ^ w * splat w c lanes.length) + (lane + 2 ^ w * pack w lanes) =
            (2 ^ w - c + lane) + 2 ^ w * (d + pack w lanes) := by
          rw [Nat.mul_add, Nat.mul_add, Nat.mul_add]
          omega
        rw [this, Nat.add_mul_mod_self_left]
      simp only [Nat.and_mod_two_pow] at hmod
      rw [hlow, compl_split hlane (pack_lt hrest), (split_mod_div _ _ (by omega)).1, (split_mod_div _ _ htop).1,
        top_of_lt (by omega) hc hw] at hmod
      simp at hmod
    have hdiv := congrArg (· / 2 ^ w) hzero
    simp only [Nat.and_div_two_pow, Nat.zero_div] at hdiv
    rw [sub_split hle hlane (splat_le hcw _), compl_split hlane (pack_lt hrest), (split_mod_div _ _ (by omega)).2,
      (split_mod_div _ _ (by omega)).2, (split_mod_div _ _ htop).2] at hdiv
    intro l hmem
    rcases mem_cons.1 hmem with rfl | hmem
    · exact hle
    · exact ih hrest hdiv l hmem

theorem pack_op {f : ℕ → ℕ → ℕ} (hzero : f 0 0 = 0) (hmod : ∀ a b, f a b % 2 ^ w = f (a % 2 ^ w) (b % 2 ^ w))
    (hdiv : ∀ a b, f a b / 2 ^ w = f (a / 2 ^ w) (b / 2 ^ w)) (hq : q < 2 ^ w)
    (hl : ∀ l ∈ lanes, l < 2 ^ w) : f (pack w lanes) (splat w q lanes.length) = pack w (lanes.map (f · q)) := by
  induction lanes with
  | nil => simpa [pack, splat] using hzero
  | cons lane lanes ih =>
    have hlane := hl lane (mem_cons_self ..)
    rw [length_cons, splat_succ, map_cons, pack, pack, ← ih fun l h => hl l (mem_cons_of_mem _ h)]
    rw [← Nat.mod_add_div (f (lane + 2 ^ w * pack w lanes) (q + 2 ^ w * splat w q lanes.length)) (2 ^ w), hmod, hdiv,
      (split_mod_div _ _ hlane).1, (split_mod_div _ _ hlane).2, (split_mod_div _ _ hq).1, (split_mod_div _ _ hq).2]

theorem pack_xor (hq : q < 2 ^ w) (hl : ∀ l ∈ lanes, l < 2 ^ w) :
    pack w lanes ^^^ splat w q lanes.length = pack w (lanes.map (· ^^^ q)) :=
  pack_op rfl (fun _ _ => Nat.xor_mod_two_pow) (fun _ _ => Nat.xor_div_two_pow) hq hl

theorem pack_and (hq : q < 2 ^ w) (hl : ∀ l ∈ lanes, l < 2 ^ w) :
    pack w lanes &&& splat w q lanes.length = pack w (lanes.map (· &&& q)) :=
  pack_op rfl (fun _ _ => Nat.and_mod_two_pow) (fun _ _ => Nat.and_div_two_pow) hq hl

theorem pack_eq_zero : ∀ {lanes : List ℕ}, pack w lanes = 0 → ∀ l ∈ lanes, l = 0 := by
  intro lanes
  induction lanes with
  | nil => exact nofun
  | cons lane lanes ih =>
    intro h l hl
    rw [pack, Nat.add_eq_zero_iff, Nat.mul_eq_zero] at h
    rcases mem_cons.1 hl with rfl | hl
    · exact h.1
    · exact ih (h.2.resolve_left (Nat.two_pow_pos w).ne') l hl

theorem ne_of_below_xor_eq_zero (hw : 0 < w) (hq : q < 2 ^ w) (hl : ∀ l ∈ lanes, l < 2 ^ w)
    (h : below w 1 lanes.length (pack w lanes ^^^ splat w q lanes.length) = 0) : ∀ l ∈ lanes, l ≠ q := by
  rw [pack_xor hq hl] at h
  have hx : ∀ l ∈ lanes.map (· ^^^ q), l < 2 ^ w := by
    intro l hmem
    obtain ⟨a, ha, rfl⟩ := mem_map.1 hmem
    exact Nat.xor_lt_two_pow (hl a ha) hq
  have hge := le_of_below_eq_zero hw Nat.one_le_two_pow hx (by rwa [length_map])
  rintro l hmem rfl
  have := hge _ (mem_map_of_mem hmem)
  rw [Nat.xor_self] at this
  omega

theorem lt_of_and_top_eq_zero (hw : 0 < w) (hl : ∀ l ∈ lanes, l < 2 ^ w)
    (h : pack w lanes &&& splat w (2 ^ (w - 1)) lanes.length = 0) : ∀ l ∈ lanes, l < 2 ^ (w - 1) := by
  have htop : 2 ^ (w - 1) < 2 ^ w := Nat.pow_lt_pow_right (by omega) (by omega)
  rw [pack_and htop hl] at h
  intro l hmem
  by_contra hge
  have hz := congrArg (Nat.testBit · (w - 1)) (pack_eq_zero h _ (mem_map_of_mem hmem))
  have hbit : l.testBit (w - 1) = true := by
    refine Nat.testBit_of_two_pow_le_and_two_pow_add_one_gt (by omega) ?_
    rw [Nat.sub_add_cancel hw]
    exact hl l hmem
  simp [hbit] at hz

end Lanes

/-! ## Scans -/

section Scan

variable {α : Type} (p : α → Bool) (units : List α)

/-- pass over blocks of n elements while the test clears them; the fuel is the number of elements left -/
def skipBlocksFrom (n : ℕ) (clear : List α → Bool) : ℕ → List α → ℕ
  | 0, _ => 0
  | fuel + 1, units =>
    if n ≤ units.length && clear (units.take n) then n + skipBlocksFrom n clear fuel (units.drop n) else 0

def skipBlocks (n : ℕ) (clear : List α → Bool) (units : List α) : ℕ := skipBlocksFrom n clear units.length units

def scan (p : α → Bool) (units : List α) : ℕ := (units.takeWhile p).length

theorem scan_append {p : α → Bool} {run rest : List α} (h : ∀ u ∈ run, p u = true) :
    scan p (run ++ rest) = run.length + scan p rest := by
  rw [scan, scan, takeWhile_append_of_pos h, length_append]

theorem skipBlocksFrom_add_scan (n : ℕ) (clear : List α → Bool) (p : α → Bool)
    (hclear : ∀ block, block.length = n → clear block = true → ∀ u ∈ block, p u = true) (fuel : ℕ) (units : List α) :
    skipBlocksFrom n clear fuel units + scan p (units.drop (skipBlocksFrom n clear fuel units)) = scan p units := by
  induction fuel generalizing units with
  | zero => simp [skipBlocksFrom]
  | succ fuel ih =>
    rw [skipBlocksFrom]
    split_ifs with h
    · rw [Bool.and_eq_true, decide_eq_true_eq] at h
      have hlen : (units.take n).length = n := by rw [length_take]; omega
      have hsplit : scan p (units.take n ++ units.drop n) = _ := scan_append (hclear _ hlen h.2)
      rw [take_append_drop, hlen] at hsplit
      rw [hsplit, Nat.add_assoc, ← drop_drop, ih]
    · simp

theorem skipBlocks_add_scan {n : ℕ} {clear : List α → Bool} {p : α → Bool}
    (hclear : ∀ block, block.length = n → clear block = true → ∀ u ∈ block, p u = true) (units : List α) :
    skipBlocks n clear units + scan p (units.drop (skipBlocks n clear units)) = scan p units :=
  skipBlocksFrom_add_scan n clear p hclear _ _

theorem scan_le : scan p units ≤ units.length := (List.takeWhile_prefix p).length_le

theorem take_scan : units.take (scan p units) = units.takeWhile p :=
  (List.prefix_iff_eq_take.1 (List.takeWhile_prefix p)).symm

theorem drop_scan : units.drop (scan p units) = units.dropWhile p := by
  rw [← append_cancel_left_eq (units.takeWhile p), takeWhile_append_dropWhile, ← take_scan, take_append_drop]

end Scan

end Maligator.Swar
