/-
Weight-balanced concatenation: mal_string_split, mal_string_balanced_cut, mal_string_join and mal_string_new_cons_checked.

A concatenation that would leave a long rope with more than three quarters of the result is rebuilt: the heavy side is cut,
at one of its own boundaries in the middle half if there is one, and its inner part is joined with the light side. Splitting
and joining call each other; the abort in split is `none`, and so is running out of fuel.

`split_join_ok`: a call on strings of n units in total needs no more than n + 1 levels, never aborts, denotes exactly the
concatenation (the two parts) and keeps `Balanced`, for its result and for every string it makes on the way.
`rope_balance`: the same for the entry points, fuel included.
-/
import Maligator.HeapString.Hash

namespace Maligator.HeapString

open Text List Option

/-! ## heap_string.c -/

def newConsNode (h : StringHeap) (left right : ℕ) : StringHeap × ℕ :=
  h.alloc (initFlat (.cons ((h.get left).latin1 && (h.get right).latin1) left right) (h.length left + h.length right))

/-- mal_string_balanced_cut; each round goes to an older cell -/
def balancedCutFrom (h : StringHeap) (minimum maximum midpoint : ℕ) : ℕ → ℕ → ℕ → ℕ
  | 0, _, _ => midpoint
  | fuel + 1, base, a =>
    match (h.get a).storage with
    | .cons _ left right =>
      let boundary := base + h.length left
      if boundary ≥ minimum && boundary ≤ maximum then boundary
      else if boundary < minimum then balancedCutFrom h minimum maximum midpoint fuel boundary right
      else balancedCutFrom h minimum maximum midpoint fuel base left
    | _ => midpoint

def balancedCut (h : StringHeap) (a minimum maximum midpoint : ℕ) : ℕ :=
  balancedCutFrom h minimum maximum midpoint (a + 1) 0 a

def isBalanceTerminal (h : StringHeap) (a : ℕ) : Bool := !h.isCons a || h.length a ≤ 2 * inlineLatin1CodeUnits

def maximumChild (length : ℕ) : ℕ := length - (length + 3) / 4

def children (h : StringHeap) (a : ℕ) : ℕ × ℕ :=
  match (h.get a).storage with
  | .cons _ left right => (left, right)
  | _ => (a, a)

/-- a string without parts is cut by slicing -/
def splitLeaf (h : StringHeap) (a offset : ℕ) : StringHeap × ℕ × ℕ :=
  let front := newSlice h a 0 offset
  let back := newSlice front.1 a offset (front.1.length a - offset)
  (back.1, front.2, back.2)

mutual

def split : ℕ → StringHeap → ℕ → ℕ → Option (StringHeap × ℕ × ℕ)
  | 0, _, _, _ => none
  | fuel + 1, h, a, offset =>
    if offset = 0 || offset ≥ h.length a then none
    else if !h.isCons a then some (splitLeaf h a offset)
    else
      let (left, right) := children h a
      if offset = h.length left then some (h, left, right)
      else if offset < h.length left then
        (split fuel h left offset).bind fun (h1, front, middle) =>
          (join fuel h1 middle right).bind fun (h2, back) => some (h2, front, back)
      else
        (split fuel h right (offset - h.length left)).bind fun (h1, middle, back) =>
          (join fuel h1 left middle).bind fun (h2, front) => some (h2, front, back)

def join : ℕ → StringHeap → ℕ → ℕ → Option (StringHeap × ℕ)
  | 0, _, _, _ => none
  | fuel + 1, h, left, right =>
    let length := h.length left + h.length right
    let maximum := maximumChild length
    if h.length left > maximum && !isBalanceTerminal h left then
      let (front, back) := children h left
      if !h.isCons front && h.length front > maximum then
        (join fuel h back right).bind fun (h1, rest) => some (newConsNode h1 front rest)
      else
        (split fuel h left (balancedCut h left (length - maximum) maximum (length / 2))).bind fun (h1, front, middle) =>
          (join fuel h1 middle right).bind fun (h2, rest) => some (newConsNode h2 front rest)
    else if h.length right > maximum && !isBalanceTerminal h right then
      let (front, back) := children h right
      if !h.isCons back && h.length back > maximum then
        (join fuel h left front).bind fun (h1, rest) => some (newConsNode h1 rest back)
      else
        (split fuel h right (balancedCut h right (length - maximum - h.length left) (maximum - h.length left)
            (length / 2 - h.length left))).bind fun (h1, middle, back) =>
          (join fuel h1 left middle).bind fun (h2, rest) => some (newConsNode h2 rest back)
    else some (newConsNode h left right)

end

/-- why a concatenation gives no string: an abort, or the engine's length limit -/
inductive StringFailure where
  | abort
  | lengthLimit
  deriving DecidableEq, Repr

/-- carry the hash of a long left part over to the concatenation -/
def carryHash (h : StringHeap) (left right a : ℕ) : StringHeap :=
  if (h.get left).hashValid && h.length left > inlineCodeUnits && h.length right ≤ h.length left then
    setHash h a (hashContinue h (h.get left).hash right)
  else h

def flatLatin1Pair (h : StringHeap) (left right : ℕ) : Option (List UInt8) :=
  match h.flat? left, h.flat? right with
  | some (.latin1 front), some (.latin1 back) => some (front ++ back)
  | _, _ => none

def flatPair (h : StringHeap) (left right : ℕ) : Option (List UInt16) :=
  match h.flat? left, h.flat? right with
  | some front, some back => some (front.units ++ back.units)
  | _, _ => none

/-- the rope case of mal_string_new_cons_checked -/
def joinChecked (h : StringHeap) (left right : ℕ) : Except StringFailure (StringHeap × ℕ) :=
  match join (h.length left + h.length right + 1) h left right with
  | some (h', a) => .ok (carryHash h' left right a, a)
  | none => .error .abort

def newConsChecked (h : StringHeap) (left right : ℕ) : Except StringFailure (StringHeap × ℕ) :=
  if h.length left = 0 || h.length right = 0 then .error .abort
  else
    let length := h.length left + h.length right
    if length > stringMaxCodeUnits then .error .lengthLimit
    else if length ≤ 4 then
      match flatLatin1Pair h left right with
      | some bytes => .ok (newLatin1 h bytes)
      | none => .ok (newCopy h (copyRangeTo h left 0 (h.length left) ++ copyRangeTo h right 0 (h.length right)))
    else
      match flatLatin1Pair h left right, flatPair h left right with
      | some bytes, some units =>
        if length ≤ inlineLatin1CodeUnits then .ok (newInlineLatin1 h bytes)
        else if length ≤ inlineCodeUnits then .ok (newFlat h .inline (compact units))
        else joinChecked h left right
      | _, some units =>
        if length ≤ inlineCodeUnits then .ok (newFlat h .inline (compact units)) else joinChecked h left right
      | _, none => joinChecked h left right

/-! ## Balance -/

/-- **The weight bound, everywhere below a string.** -/
inductive Balanced (h : StringHeap) : ℕ → Prop
  | leaf {a : ℕ} (hleaf : h.isCons a = false) : Balanced h a
  | node {a left right : ℕ} {latin1 : Bool} (hs : (h.get a).storage = .cons latin1 left right) (hleft : Balanced h left)
      (hright : Balanced h right) (wleft : ChildOk h left (h.length a)) (wright : ChildOk h right (h.length a)) : Balanced h a

theorem maximumChild_eq (length : ℕ) : maximumChild length = 3 * length / 4 := by
  rw [maximumChild]
  omega

section Lemmas

variable {h h' : StringHeap}

variable {a left right offset n : ℕ} {r : StringHeap × ℕ × ℕ} {c : ℕ}

theorem Balanced.mono (hok : HeapOk h) (hx : Extends h h') (ha : a < h.size) (hb : Balanced h a) : Balanced h' a := by
  induction hb with
  | leaf hleaf => exact .leaf ((hx.isCons ha).trans hleaf)
  | node hs hleft hright wleft wright ihl ihr =>
    rename_i a left right latin1
    obtain ⟨hlh, hrh, -⟩ := cons_parts hok ha hs
    refine .node ((congrArg MalString.storage (hx.get a ha)).trans hs) (ihl hlh) (ihr hrh) ?_ ?_ <;> rw [hx.length ha]
    · exact wleft.mono hx hlh
    · exact wright.mono hx hrh

theorem Balanced.congr (hs : ∀ b, (h'.get b).storage = (h.get b).storage) (hl : ∀ b, h'.length b = h.length b)
    (hb : Balanced h a) : Balanced h' a := by
  have hc : ∀ b, h'.isCons b = h.isCons b := fun b => by rw [StringHeap.isCons, hs, StringHeap.isCons]
  induction hb with
  | leaf hleaf => exact .leaf ((hc _).trans hleaf)
  | node hst hleft hright wleft wright ihl ihr =>
    refine .node ((hs _).trans hst) ihl ihr ?_ ?_ <;> rwa [ChildOk, hc, hl, hl]

theorem isCons_iff : h.isCons a = true ↔ ∃ latin1 left right, (h.get a).storage = .cons latin1 left right := by
  unfold StringHeap.isCons
  cases hs : (h.get a).storage with
  | flat kind payload | builder payload capacity | dependent latin1 parent offset | cons latin1 left right => simp

section

variable (hok : HeapOk h)
include hok

theorem value_length (ha : IsValue h a) : (units h a).length = h.length a := length_units hok a ha.1

theorem weighted_iff : Weighted h ↔ ∀ a, a < h.size → Balanced h a := by
  constructor
  · intro hw a
    induction a using Nat.strong_induction_on with
    | _ a ih =>
      intro ha
      cases hc : h.isCons a with
      | false => exact .leaf hc
      | true =>
        obtain ⟨latin1, left, right, hs⟩ := isCons_iff.1 hc
        obtain ⟨hl, hr, -⟩ := hok.cons ha hs
        obtain ⟨wl, wr⟩ := hw a latin1 left right ha hs
        exact .node hs (ih left hl (by omega)) (ih right hr (by omega)) wl wr
  · intro hb a latin1 left right ha hs
    cases hb a ha with
    | leaf hleaf => rw [StringHeap.isCons, hs] at hleaf; cases hleaf
    | node hs' _ _ wleft wright =>
      rw [hs] at hs'
      cases hs'
      exact ⟨wleft, wright⟩

theorem children_spec (ha : a < h.size) (hc : h.isCons a = true) :
    IsValue h (children h a).1 ∧ IsValue h (children h a).2 ∧ 0 < h.length (children h a).1 ∧
      0 < h.length (children h a).2 ∧ h.length a = h.length (children h a).1 + h.length (children h a).2 ∧
      units h a = units h (children h a).1 ++ units h (children h a).2 ∧
      (Balanced h a → Balanced h (children h a).1 ∧ Balanced h (children h a).2) := by
  obtain ⟨latin1, left, right, hs⟩ := isCons_iff.1 hc
  obtain ⟨hl, hr, h1, h2, h3, h4, h5⟩ := hok.cons ha hs
  have hch : children h a = (left, right) := by rw [children, hs]
  rw [hch]
  refine ⟨⟨by dsimp only; omega, h4⟩, ⟨by dsimp only; omega, h5⟩, h1, h2, h3, units_cons hok ha hs, fun hb => ?_⟩
  cases hb with
  | leaf hleaf => rw [hc] at hleaf; cases hleaf
  | node hs' hleft hright =>
    rw [hs] at hs'
    cases hs'
    exact ⟨hleft, hright⟩

theorem newConsNode_makes (hl : IsValue h left) (hr : IsValue h right)
    (hlpos : 0 < h.length left) (hrpos : 0 < h.length right) (hfits : h.length left + h.length right ≤ stringMaxCodeUnits)
    (wl : ChildOk h left (h.length left + h.length right)) (wr : ChildOk h right (h.length left + h.length right)) :
    Makes h (units h left ++ units h right) (newConsNode h left right) ∧ h.size ≤ (newConsNode h left right).2 ∧
      (Balanced h left → Balanced h right → Balanced (newConsNode h left right).1 (newConsNode h left right).2) := by
  set cell := initFlat (.cons ((h.get left).latin1 && (h.get right).latin1) left right) (h.length left + h.length right) with hcell
  have hget := get_alloc h cell
  have hx := extends_alloc h cell
  have hlen : (h.alloc cell).1.length h.size = h.length left + h.length right := by rw [StringHeap.length, hget]; rfl
  have hunits : units (h.alloc cell).1 h.size = units h left ++ units h right := by
    have hchild : ∀ c, c < h.size → unitsFrom (h.alloc cell).1 h.size c = units h c := fun c hc => by
      rw [hx.unitsFrom hok h.size c hc, unitsFrom_stable hok h.size c hc hc]
    rw [units, unitsFrom, hget]
    change unitsFrom _ _ left ++ unitsFrom _ _ right = _
    rw [hchild left hl.1, hchild right hr.1]
  have hcellOk : CellOk (h.alloc cell).1 h.size := by
    refine ⟨hlen.le.trans hfits, ?_, ?_, ?_⟩
    · unfold ShapeOk
      rw [hlen, hget, hcell]
      refine ⟨hl.1, hr.1, ?_, ?_, ?_, ?_, ?_⟩ <;> rw [← hcell]
      · rwa [hx.length hl.1]
      · rwa [hx.length hr.1]
      · rw [hx.length hl.1, hx.length hr.1]
      · rw [hx.isBuilder hl.1]; exact hl.2
      · rw [hx.isBuilder hr.1]; exact hr.2
    · rw [hunits, hget]
      intro hlatin1 u hu
      have hboth : ((h.get left).latin1 && (h.get right).latin1) = true := hlatin1
      rw [Bool.and_eq_true] at hboth
      rcases mem_append.1 hu with hu | hu
      · exact (hok.cell left hl.1).narrow hboth.1 u hu
      · exact (hok.cell right hr.1).narrow hboth.2 u hu
    · rw [hget]
      exact fun hv => by cases hv
  have hnew : Makes h (units h left ++ units h right) (newConsNode h left right) := by
    refine ⟨alloc_ok hok hcellOk, hx, ⟨?_, ?_⟩, hunits, weighted_alloc hok fun _ _ _ hs => ?_⟩
    · change h.size < StringHeap.size (h.alloc cell).1
      rw [size_alloc]
      omega
    · change StringHeap.isBuilder (h.alloc cell).1 h.size = false
      rw [StringHeap.isBuilder, hget]
      rfl
    · cases hs
      exact ⟨hl.1, hr.1, wl, wr⟩
  refine ⟨hnew, le_rfl, fun bl br => ?_⟩
  change Balanced (h.alloc cell).1 h.size
  refine .node (by rw [hget]; rfl) (bl.mono hok hx hl.1) (br.mono hok hx hr.1) ?_ ?_ <;> rw [hlen]
  · exact wl.mono hx hl.1
  · exact wr.mono hx hr.1

omit hok in
theorem balancedCut_spec (h : StringHeap) (minimum maximum midpoint : ℕ) : ∀ fuel base a,
    balancedCutFrom h minimum maximum midpoint fuel base a = midpoint ∨
      minimum ≤ balancedCutFrom h minimum maximum midpoint fuel base a ∧
        balancedCutFrom h minimum maximum midpoint fuel base a ≤ maximum := by
  intro fuel
  induction fuel with
  | zero => exact fun _ _ => .inl rfl
  | succ fuel ih =>
    intro base a
    rw [balancedCutFrom]
    cases (h.get a).storage with
    | flat kind payload | builder payload capacity | dependent latin1 parent offset => exact .inl rfl
    | cons latin1 left right =>
      dsimp only
      split_ifs with h1 h2
      · rw [Bool.and_eq_true, decide_eq_true_eq, decide_eq_true_eq] at h1
        exact .inr h1
      · exact ih _ _
      · exact ih _ _

/-! ## Splitting and joining -/

structure Splits (h : StringHeap) (a offset : ℕ) (r : StringHeap × ℕ × ℕ) : Prop where
  ok : HeapOk r.1
  ext : Extends h r.1
  front : IsValue r.1 r.2.1
  back : IsValue r.1 r.2.2
  unitsFront : units r.1 r.2.1 = (units h a).take offset
  unitsBack : units r.1 r.2.2 = (units h a).drop offset
  weighted : Weighted h → Weighted r.1
  balanced : Balanced h a → Balanced r.1 r.2.1 ∧ Balanced r.1 r.2.2

structure Joins (h : StringHeap) (left right : ℕ) (r : StringHeap × ℕ) : Prop extends
    Makes h (units h left ++ units h right) r where
  fresh : h.size ≤ r.2
  balanced : Balanced h left → Balanced h right → Balanced r.1 r.2

theorem Splits.length_front (ha : a < h.size)
    (hle : offset ≤ h.length a) (hs : Splits h a offset r) : r.1.length r.2.1 = offset := by
  rw [← value_length hs.ok hs.front, hs.unitsFront, length_take, length_units hok a ha, Nat.min_eq_left hle]

theorem Splits.length_back (ha : a < h.size) (hs : Splits h a offset r) : r.1.length r.2.2 = h.length a - offset := by
  rw [← value_length hs.ok hs.back, hs.unitsBack, length_drop, length_units hok a ha]

theorem Joins.length {r : StringHeap × ℕ} (hl : left < h.size) (hr : right < h.size)
    (hj : Joins h left right r) : r.1.length r.2 = h.length left + h.length right := by
  rw [← value_length hj.ok hj.value, hj.units, length_append, length_units hok left hl, length_units hok right hr]

theorem splitLeaf_spec (ha : IsValue h a) (hcons : h.isCons a = false)
    (hle : offset ≤ h.length a) : Splits h a offset (splitLeaf h a offset) := by
  have hlen := length_units hok a ha.1
  obtain ⟨hm1, hc1⟩ := newSlice_makes hok ha (by omega : 0 + offset ≤ h.length a)
  rw [splitLeaf]
  generalize newSlice h a 0 offset = front at *
  have hl1 := hm1.ext.length ha.1
  obtain ⟨hm2, hc2⟩ := newSlice_makes hm1.ok (hm1.ext.value ha)
    (by omega : offset + (front.1.length a - offset) ≤ front.1.length a)
  refine ⟨hm2.ok, hm1.ext.trans hm2.ext, hm2.ext.value hm1.value, hm2.value, ?_, ?_, hm2.weighted ∘ hm1.weighted,
    fun _ => ⟨.leaf ?_, .leaf ?_⟩⟩
  · rw [hm2.ext.units hm1.ok hm1.value.1, hm1.units, slice, drop_zero]
  · rw [hm2.units, hm1.ext.units hok ha.1, slice, hl1, take_of_length_le (by rw [length_drop, hlen])]
  · exact (hm2.ext.isCons hm1.value.1).trans (hc1 hcons)
  · exact hc2 ((hm1.ext.isCons ha.1).trans hcons)

end

variable {h1 : StringHeap} {new : List UInt16} {fuel : ℕ}

theorem node_over (hok1 : HeapOk h1) (hx1 : Extends h h1) (hw1 : Weighted h → Weighted h1) {front rest : ℕ}
    (hf : IsValue h1 front) (hr : IsValue h1 rest) (hnew : units h1 front ++ units h1 rest = new)
    (hn : h1.length front + h1.length rest = n) (hfpos : 0 < h1.length front) (hrpos : 0 < h1.length rest)
    (hfits : n ≤ stringMaxCodeUnits) (wf : ChildOk h1 front n) (wr : ChildOk h1 rest n) :
    Makes h new (newConsNode h1 front rest) ∧ h.size ≤ (newConsNode h1 front rest).2 ∧
      (Balanced h1 front → Balanced h1 rest → Balanced (newConsNode h1 front rest).1 (newConsNode h1 front rest).2) := by
  subst hn
  obtain ⟨hm, hfresh, hbal⟩ := newConsNode_makes hok1 hf hr hfpos hrpos hfits wf wr
  exact ⟨⟨hm.ok, hx1.trans hm.ext, hm.value, hm.units.trans hnew, hm.weighted ∘ hw1⟩, hx1.size.trans hfresh, hbal⟩

theorem childOk_of_le (hle : h.length c ≤ maximumChild n) : ChildOk h c n := by
  rw [maximumChild_eq] at hle
  exact fun _ _ => hle

theorem childOk_of_leaf (hleaf : h.isCons c = false) : ChildOk h c n := fun hc => by rw [hleaf] at hc; cases hc

theorem childOk_of_terminal (ht : isBalanceTerminal h c = true) : ChildOk h c n := by
  rw [isBalanceTerminal, Bool.or_eq_true, Bool.not_eq_true', decide_eq_true_eq, inlineLatin1CodeUnits] at ht
  intro hc hlong
  rcases ht with ht | ht
  · rw [ht] at hc
    cases hc
  · omega

def SplitOk (fuel : ℕ) : Prop := ∀ (h : StringHeap) (a offset : ℕ), HeapOk h → IsValue h a → 0 < offset →
  offset < h.length a → h.length a < fuel → ∃ r, split fuel h a offset = some r ∧ Splits h a offset r

def JoinOk (fuel : ℕ) : Prop := ∀ (h : StringHeap) (left right : ℕ), HeapOk h → IsValue h left → IsValue h right →
  0 < h.length left → 0 < h.length right → h.length left + h.length right ≤ stringMaxCodeUnits →
    h.length left + h.length right < fuel → ∃ r, join fuel h left right = some r ∧ Joins h left right r

theorem split_step (ihs : SplitOk fuel) (ihj : JoinOk fuel) : SplitOk (fuel + 1) := by
  intro h a offset hok ha hpos hlt hfuel
  have hfits := (hok.cell a ha.1).fits
  rw [split, if_neg (by simp; omega)]
  cases hcons : h.isCons a with
  | false =>
    exact ⟨splitLeaf h a offset, rfl, splitLeaf_spec hok ha hcons hlt.le⟩
  | true =>
    obtain ⟨hlv, hrv, hlpos, hrpos, hsum, hunits, hbal⟩ := children_spec hok ha.1 hcons
    have hll := length_units hok _ hlv.1
    simp only [Bool.not_true, Bool.false_eq_true, if_false]
    generalize hch : children h a = c at *
    obtain ⟨left, right⟩ := c
    dsimp only at hlv hrv hlpos hrpos hsum hunits hbal hll ⊢
    split_ifs with heq hltl
    · refine ⟨_, rfl, hok, Extends.refl h, hlv, hrv, ?_, ?_, id, hbal⟩
      · rw [hunits, heq, ← hll, take_left]
      · rw [hunits, heq, ← hll, drop_left]
    · obtain ⟨r1, hr1, hs1⟩ := ihs h left offset hok hlv hpos hltl (by omega)
      have hlb := hs1.length_back hok hlv.1
      have hrv1 := hs1.ext.value hrv
      have hlr := hs1.ext.length hrv.1
      obtain ⟨r2, hr2, hj⟩ := ihj r1.1 r1.2.2 right hs1.ok hs1.back hrv1 (by omega) (by omega) (by omega) (by omega)
      refine ⟨(r2.1, r1.2.1, r2.2), ?_, hj.ok, hs1.ext.trans hj.ext, hj.ext.value hs1.front, hj.value, ?_, ?_,
        hj.weighted ∘ hs1.weighted, fun hb => ?_⟩
      · rw [hr1, bind_some]
        rw [hr2, bind_some]
      · rw [hj.ext.units hs1.ok hs1.front.1, hs1.unitsFront, hunits, take_append_of_le_length (by omega)]
      · rw [hj.units, hs1.unitsBack, hs1.ext.units hok hrv.1, hunits, drop_append_of_le_length (by omega)]
      · obtain ⟨hbl, hbr⟩ := hbal hb
        obtain ⟨hbf, hbm⟩ := hs1.balanced hbl
        exact ⟨hbf.mono hs1.ok hj.ext hs1.front.1, hj.balanced hbm (hbr.mono hok hs1.ext hrv.1)⟩
    obtain ⟨r1, hr1, hs1⟩ := ihs h right (offset - h.length left) hok hrv (by omega) (by omega) (by omega)
    have hlf := hs1.length_front hok hrv.1 (by omega)
    have hlv1 := hs1.ext.value hlv
    have hlr := hs1.ext.length hlv.1
    obtain ⟨r2, hr2, hj⟩ := ihj r1.1 left r1.2.1 hs1.ok hlv1 hs1.front (by omega) (by omega) (by omega) (by omega)
    refine ⟨(r2.1, r2.2, r1.2.2), ?_, hj.ok, hs1.ext.trans hj.ext, hj.value, hj.ext.value hs1.back, ?_, ?_,
      hj.weighted ∘ hs1.weighted, fun hb => ?_⟩
    · rw [hr1, bind_some]
      rw [hr2, bind_some]
    · rw [hj.units, hs1.unitsFront, hs1.ext.units hok hlv.1, hunits, take_append, hll,
        take_of_length_le (by omega : (units h left).length ≤ offset)]
    · rw [hj.ext.units hs1.ok hs1.back.1, hs1.unitsBack, hunits, drop_append, hll,
        drop_eq_nil_of_le (by omega : (units h left).length ≤ offset), nil_append]
    · obtain ⟨hbl, hbr⟩ := hbal hb
      obtain ⟨hbm, hbb⟩ := hs1.balanced hbr
      exact ⟨hj.balanced (hbl.mono hok hs1.ext hlv.1) hbm, hbb.mono hs1.ok hj.ext hs1.back.1⟩

section

variable (fuel : ℕ) (h : StringHeap) (left right n : ℕ)

/-- the left side is cut, or its long first leaf is kept apart -/
def joinLeftHeavy : Option (StringHeap × ℕ) :=
  let (front, back) := children h left
  if !h.isCons front && h.length front > maximumChild n then
    (join fuel h back right).bind fun (h1, rest) => some (newConsNode h1 front rest)
  else
    (split fuel h left (balancedCut h left (n - maximumChild n) (maximumChild n) (n / 2))).bind fun (h1, front, middle) =>
      (join fuel h1 middle right).bind fun (h2, rest) => some (newConsNode h2 front rest)

/-- the right side is cut, or its long last leaf is kept apart -/
def joinRightHeavy : Option (StringHeap × ℕ) :=
  let (front, back) := children h right
  if !h.isCons back && h.length back > maximumChild n then
    (join fuel h left front).bind fun (h1, rest) => some (newConsNode h1 rest back)
  else
    (split fuel h right (balancedCut h right (n - maximumChild n - h.length left) (maximumChild n - h.length left)
        (n / 2 - h.length left))).bind fun (h1, middle, back) =>
      (join fuel h1 left middle).bind fun (h2, rest) => some (newConsNode h2 rest back)

theorem join_eq : join (fuel + 1) h left right =
    if (decide (h.length left > maximumChild (h.length left + h.length right)) && !isBalanceTerminal h left) = true then
      joinLeftHeavy fuel h left right (h.length left + h.length right)
    else if (decide (h.length right > maximumChild (h.length left + h.length right)) && !isBalanceTerminal h right) = true then
      joinRightHeavy fuel h left right (h.length left + h.length right) else some (newConsNode h left right) := by
  rfl

end

theorem heavy_spec (hheavy : (decide (h.length c > maximumChild n) && !isBalanceTerminal h c) = true) :
    maximumChild n < h.length c ∧ h.isCons c = true ∧ 32 < h.length c := by
  rw [Bool.and_eq_true, decide_eq_true_eq, Bool.not_eq_true', isBalanceTerminal, Bool.or_eq_false_iff,
    Bool.not_eq_false', decide_eq_false_iff_not] at hheavy
  exact ⟨hheavy.1, hheavy.2.1, not_le.1 hheavy.2.2⟩

section

variable (ihs : SplitOk fuel) (ihj : JoinOk fuel) (hok : HeapOk h) (hlv : IsValue h left) (hrv : IsValue h right)
  (hfits : n ≤ stringMaxCodeUnits) (hfuel : n < fuel + 1) (hn : n = h.length left + h.length right)
include ihs ihj hok hlv hrv hfits hfuel hn

theorem joinLeftHeavy_spec (hrpos : 0 < h.length right)
    (hheavy : (decide (h.length left > maximumChild n) && !isBalanceTerminal h left) = true) :
    ∃ r, joinLeftHeavy fuel h left right n = some r ∧ Joins h left right r := by
  have hmax : maximumChild n = n - (n + 3) / 4 := rfl
  rw [joinLeftHeavy]
  obtain ⟨hgt, hcons, hlong⟩ := heavy_spec hheavy
  obtain ⟨hfv, hbv, hfpos, hbpos, hsum, hunits, hbal⟩ := children_spec hok hlv.1 hcons
  generalize hch : children h left = c at *
  obtain ⟨front, back⟩ := c
  dsimp only at hfv hbv hfpos hbpos hsum hunits hbal ⊢
  split_ifs with hleaf
  · -- a long leaf on the left stays where it is
    rw [Bool.and_eq_true, Bool.not_eq_true', decide_eq_true_eq] at hleaf
    obtain ⟨r1, hr1, hj⟩ := ihj h back right hok hbv hrv hbpos hrpos (by omega) (by omega)
    have hjl := hj.length hok hbv.1 hrv.1
    have hfl := hj.ext.length hfv.1
    obtain ⟨hm, hfresh, hb⟩ := node_over hj.ok hj.ext hj.weighted (hj.ext.value hfv) hj.value
      (by rw [hj.ext.units hok hfv.1, hj.units, ← append_assoc, ← hunits] :
        _ = units h left ++ units h right) (by omega : _ = n) (by omega) (by omega) hfits
      (childOk_of_leaf ((hj.ext.isCons hfv.1).trans hleaf.1)) (childOk_of_le (by omega))
    refine ⟨_, by rw [hr1]; rfl, ⟨hm, hfresh, fun hbl hbr => ?_⟩⟩
    obtain ⟨hbf, hbb⟩ := hbal hbl
    exact hb (hbf.mono hok hj.ext hfv.1) (hj.balanced hbb hbr)
  have hcut := balancedCut_spec h (n - maximumChild n) (maximumChild n) (n / 2) (left + 1) 0 left
  rw [← balancedCut] at hcut
  generalize balancedCut h left (n - maximumChild n) (maximumChild n) (n / 2) = cut at *
  obtain ⟨r1, hr1, hs1⟩ := ihs h left cut hok hlv (by omega) (by omega) (by omega)
  have hlf := hs1.length_front hok hlv.1 (by omega)
  have hlb := hs1.length_back hok hlv.1
  have hrv1 := hs1.ext.value hrv
  have hlr1 := hs1.ext.length hrv.1
  obtain ⟨r2, hr2, hj⟩ := ihj r1.1 r1.2.2 right hs1.ok hs1.back hrv1 (by omega) (by omega) (by omega) (by omega)
  have hjl := hj.length hs1.ok hs1.back.1 hrv1.1
  have hfl := hj.ext.length hs1.front.1
  obtain ⟨hm, hfresh, hb⟩ := node_over hj.ok (hs1.ext.trans hj.ext) (hj.weighted ∘ hs1.weighted)
    (hj.ext.value hs1.front) hj.value
    (by rw [hj.ext.units hs1.ok hs1.front.1, hj.units, hs1.unitsFront, hs1.unitsBack, hs1.ext.units hok hrv.1,
      ← append_assoc, take_append_drop] : _ = units h left ++ units h right)
    (by omega : _ = n) (by omega) (by omega) hfits (childOk_of_le (by omega)) (childOk_of_le (by omega))
  refine ⟨_, by rw [hr1, bind_some, hr2]; rfl, ⟨hm, hfresh, fun hbl hbr => ?_⟩⟩
  obtain ⟨hbf, hbm⟩ := hs1.balanced hbl
  exact hb (hbf.mono hs1.ok hj.ext hs1.front.1) (hj.balanced hbm (hbr.mono hok hs1.ext hrv.1))

theorem joinRightHeavy_spec (hlpos : 0 < h.length left)
    (hheavy : (decide (h.length right > maximumChild n) && !isBalanceTerminal h right) = true) :
    ∃ r, joinRightHeavy fuel h left right n = some r ∧ Joins h left right r := by
  have hmax : maximumChild n = n - (n + 3) / 4 := rfl
  rw [joinRightHeavy]
  obtain ⟨hgt, hcons, hlong⟩ := heavy_spec hheavy
  obtain ⟨hfv, hbv, hfpos, hbpos, hsum, hunits, hbal⟩ := children_spec hok hrv.1 hcons
  generalize hch : children h right = c at *
  obtain ⟨front, back⟩ := c
  dsimp only at hfv hbv hfpos hbpos hsum hunits hbal ⊢
  split_ifs with hleaf
  · rw [Bool.and_eq_true, Bool.not_eq_true', decide_eq_true_eq] at hleaf
    obtain ⟨r1, hr1, hj⟩ := ihj h left front hok hlv hfv hlpos hfpos (by omega) (by omega)
    have hjl := hj.length hok hlv.1 hfv.1
    have hbl' := hj.ext.length hbv.1
    obtain ⟨hm, hfresh, hb⟩ := node_over hj.ok hj.ext hj.weighted hj.value (hj.ext.value hbv)
      (by rw [hj.ext.units hok hbv.1, hj.units, append_assoc, ← hunits] :
        _ = units h left ++ units h right) (by omega : _ = n) (by omega) (by omega) hfits (childOk_of_le (by omega))
      (childOk_of_leaf ((hj.ext.isCons hbv.1).trans hleaf.1))
    refine ⟨_, by rw [hr1]; rfl, ⟨hm, hfresh, fun hbl hbr => ?_⟩⟩
    obtain ⟨hbf, hbb⟩ := hbal hbr
    exact hb (hj.balanced hbl hbf) (hbb.mono hok hj.ext hbv.1)
  have hcut := balancedCut_spec h (n - maximumChild n - h.length left) (maximumChild n - h.length left)
    (n / 2 - h.length left) (right + 1) 0 right
  rw [← balancedCut] at hcut
  generalize balancedCut h right (n - maximumChild n - h.length left) (maximumChild n - h.length left)
    (n / 2 - h.length left) = cut at *
  obtain ⟨r1, hr1, hs1⟩ := ihs h right cut hok hrv (by omega) (by omega) (by omega)
  have hlf := hs1.length_front hok hrv.1 (by omega)
  have hlb := hs1.length_back hok hrv.1
  have hlv1 := hs1.ext.value hlv
  have hll1 := hs1.ext.length hlv.1
  obtain ⟨r2, hr2, hj⟩ := ihj r1.1 left r1.2.1 hs1.ok hlv1 hs1.front (by omega) (by omega) (by omega) (by omega)
  have hjl := hj.length hs1.ok hlv1.1 hs1.front.1
  have hbl' := hj.ext.length hs1.back.1
  obtain ⟨hm, hfresh, hb⟩ := node_over hj.ok (hs1.ext.trans hj.ext) (hj.weighted ∘ hs1.weighted) hj.value
    (hj.ext.value hs1.back)
    (by rw [hj.ext.units hs1.ok hs1.back.1, hj.units, hs1.unitsFront, hs1.unitsBack, hs1.ext.units hok hlv.1,
      append_assoc, take_append_drop] : _ = units h left ++ units h right)
    (by omega : _ = n) (by omega) (by omega) hfits (childOk_of_le (by omega)) (childOk_of_le (by omega))
  refine ⟨_, by rw [hr1, bind_some, hr2]; rfl, ⟨hm, hfresh, fun hbl hbr => ?_⟩⟩
  obtain ⟨hbm, hbb⟩ := hs1.balanced hbr
  exact hb (hj.balanced (hbl.mono hok hs1.ext hlv.1) hbm) (hbb.mono hs1.ok hj.ext hs1.back.1)

end

theorem childOk_of_not_heavy (hheavy : ¬(decide (h.length c > maximumChild n) && !isBalanceTerminal h c) = true) :
    ChildOk h c n := by
  rw [Bool.and_eq_true, decide_eq_true_eq, Bool.not_eq_true', not_and, Bool.not_eq_false] at hheavy
  rcases Nat.lt_or_ge (maximumChild n) (h.length c) with hgt | hle
  · exact childOk_of_terminal (hheavy hgt)
  · exact childOk_of_le hle

theorem join_step (ihs : SplitOk fuel) (ihj : JoinOk fuel) : JoinOk (fuel + 1) := by
  intro h left right hok hlv hrv hlpos hrpos hfits hfuel
  rw [join_eq]
  split_ifs with hleft hright
  · exact joinLeftHeavy_spec ihs ihj hok hlv hrv hfits hfuel rfl hrpos hleft
  · exact joinRightHeavy_spec ihs ihj hok hlv hrv hfits hfuel rfl hlpos hright
  · obtain ⟨hm, hfresh, hb⟩ := newConsNode_makes hok hlv hrv hlpos hrpos hfits (childOk_of_not_heavy hleft)
      (childOk_of_not_heavy hright)
    exact ⟨_, rfl, ⟨hm, hfresh, hb⟩⟩

theorem split_join_ok : ∀ fuel, SplitOk fuel ∧ JoinOk fuel := by
  intro fuel
  induction fuel with
  | zero => exact ⟨nofun, nofun⟩
  | succ fuel ih => exact ⟨split_step ih.1 ih.2, join_step ih.1 ih.2⟩

/-! ## The checked constructor -/

theorem flatPair_units (hp : flatPair h left right = some new) : new = units h left ++ units h right := by
  unfold flatPair at hp
  split at hp
  · next front back hl hr =>
    cases hp
    rw [units_of_leaf (leaf_of_flat hl), units_of_leaf (leaf_of_flat hr)]
  · cases hp

theorem flatLatin1Pair_units {bytes : List UInt8} (hp : flatLatin1Pair h left right = some bytes) :
    bytes.map UInt8.toUInt16 = units h left ++ units h right := by
  unfold flatLatin1Pair at hp
  split at hp
  · next front back hl hr =>
    cases hp
    rw [units_of_leaf (leaf_of_flat hl), units_of_leaf (leaf_of_flat hr), map_append]
    rfl
  · cases hp

theorem carryHash_spec (hok : HeapOk h) (hl : left < h.size) (hr : right < h.size)
    (hj : Joins h left right (h1, a)) : Joins h left right (carryHash h1 left right a, a) := by
  rw [carryHash]
  split_ifs with hcond
  swap
  · exact hj
  simp only [Bool.and_eq_true] at hcond
  have hlv : left < h1.size := lt_of_lt_of_le hl hj.ext.size
  have hrv : right < h1.size := lt_of_lt_of_le hr hj.ext.size
  set hash := hashContinue h1 (h1.get left).hash right with heq
  have hhash : hash &&& hashMask = hashCodeUnits (units h1 a) := by
    rw [heq, hashContinue_eq hj.ok hrv, (hj.ok.cell left hlv).hash hcond.1.1, hj.units, ← hj.ext.units hok hl,
      ← hj.ext.units hok hr, hashCodeUnits_append]
  have hk := set_hash hj.ok hj.value hhash
  have hx : Extends h (setHash h1 a hash) := by
    refine ⟨hj.ext.size.trans (size_set _ _ _).ge, fun b hb => ?_⟩
    have hne : b ≠ a := ne_of_lt (lt_of_lt_of_le hb hj.fresh)
    rw [setHash, get_set_ne hne, hj.ext.get b hb]
  refine ⟨⟨hk.ok, hx, hk.value a hj.value, (hk.units a hj.value).trans hj.units, hk.weighted ∘ hj.weighted⟩, hj.fresh,
    fun hbl hbr => ?_⟩
  have hsame : ∀ b, ((setHash h1 a hash).get b).storage = (h1.get b).storage ∧
      (setHash h1 a hash).length b = h1.length b := by
    intro b
    rw [setHash, StringHeap.length]
    by_cases hb : b = a
    · rw [hb, get_set_self hj.value.1]
      exact ⟨rfl, rfl⟩
    · rw [get_set_ne hb]
      exact ⟨rfl, rfl⟩
  exact (hj.balanced hbl hbr).congr (fun b => (hsame b).1) fun b => (hsame b).2

structure Concats (h : StringHeap) (left right : ℕ) (r : StringHeap × ℕ) : Prop extends
    Makes h (units h left ++ units h right) r where
  balanced : Balanced h left → Balanced h right → Balanced r.1 r.2

section

variable (hok : HeapOk h) (hl : IsValue h left) (hr : IsValue h right) (hlpos : 0 < h.length left)
  (hrpos : 0 < h.length right)
include hok hl hr hlpos hrpos

theorem joinChecked_spec (hfits : h.length left + h.length right ≤ stringMaxCodeUnits) :
    ∃ r, joinChecked h left right = .ok r ∧ Concats h left right r := by
  obtain ⟨r, hr', hj⟩ := (split_join_ok _).2 h left right hok hl hr hlpos hrpos hfits (Nat.lt_succ_self _)
  have hc := carryHash_spec hok hl.1 hr.1 (show Joins h left right (r.1, r.2) from hj)
  exact ⟨_, by rw [joinChecked, hr'], hc.toMakes, hc.balanced⟩

theorem newConsChecked_spec : if h.length left + h.length right ≤ stringMaxCodeUnits then
      ∃ r, newConsChecked h left right = .ok r ∧ Concats h left right r
    else newConsChecked h left right = .error .lengthLimit := by
  have hne : ¬(decide (h.length left = 0) || decide (h.length right = 0)) = true := by simp; omega
  split_ifs with hfits
  swap
  · rw [newConsChecked, if_neg hne]
    rw [if_pos (not_le.1 hfits)]
  rw [newConsChecked, if_neg hne]
  rw [if_neg (not_lt.2 hfits)]
  have hll := length_units hok left hl.1
  have hlr := length_units hok right hr.1
  have hlen : (units h left ++ units h right).length ≤ stringMaxCodeUnits := by rw [length_append, hll, hlr]; exact hfits
  have hleaf : ∀ {r}, MakesLeaf h (units h left ++ units h right) r →
      ∃ r', (Except.ok r : Except StringFailure _) = .ok r' ∧ Concats h left right r' :=
    fun hm => ⟨_, rfl, hm.toMakes, fun _ _ => .leaf hm.leaf⟩
  have hjoin := joinChecked_spec hok hl hr hlpos hrpos hfits
  have hbytes : ∀ {bytes}, flatLatin1Pair h left right = some bytes →
      bytes.map UInt8.toUInt16 = units h left ++ units h right ∧ bytes.length ≤ stringMaxCodeUnits := by
    intro bytes hp
    have hu := flatLatin1Pair_units hp
    exact ⟨hu, by rw [← hu, length_map] at hlen; exact hlen⟩
  have hinline : ∀ {new}, flatPair h left right = some new →
      MakesLeaf h (units h left ++ units h right) (newFlat h .inline (compact new)) := by
    intro new hp
    have hu := flatPair_units hp
    have hm := newFlat_makes hok .inline (compact new) (by rw [units_compact, hu]; exact hlen)
    rw [units_compact] at hm
    rwa [← hu]
  by_cases hshort : h.length left + h.length right ≤ 4
  · rw [if_pos hshort]
    cases hp : flatLatin1Pair h left right with
    | some bytes =>
      obtain ⟨hu, hbl⟩ := hbytes hp
      exact hleaf (hu ▸ newLatin1_makes hok bytes hbl)
    | none =>
      rw [copyRangeTo_eq hok hl.1 (by omega), copyRangeTo_eq hok hr.1 (by omega), slice_all hll, slice_all hlr]
      exact hleaf (newCopy_makes hok hlen)
  rw [if_neg hshort]
  split
  · next bytes _ hp hq =>
    obtain ⟨hu, hbl⟩ := hbytes hp
    split_ifs
    · exact hleaf (hu ▸ newFlat_makes hok .inline (.latin1 bytes) (by rwa [Segment.units, length_map]))
    · exact hleaf (hinline hq)
    · exact hjoin
  · next hq _ =>
    split_ifs
    · exact hleaf (hinline hq)
    · exact hjoin
  · exact hjoin

end

end Lemmas

/-- **Balancing terminates, keeps the content and the weight bound.** -/
theorem rope_balance (h : StringHeap) (hok : HeapOk h) :
    (∀ left right : ℕ, IsValue h left → IsValue h right → 0 < h.length left → 0 < h.length right →
      h.length left + h.length right ≤ stringMaxCodeUnits → Balanced h left → Balanced h right →
      ∀ fuel, h.length left + h.length right < fuel → ∃ h' a, join fuel h left right = some (h', a) ∧
        units h' a = units h left ++ units h right ∧ Balanced h' a ∧ HeapOk h' ∧ Extends h h') ∧
    (∀ a offset : ℕ, IsValue h a → 0 < offset → offset < h.length a → Balanced h a →
      ∀ fuel, h.length a < fuel → ∃ h' front back, split fuel h a offset = some (h', front, back) ∧
        units h' front = (units h a).take offset ∧ units h' back = (units h a).drop offset ∧
        Balanced h' front ∧ Balanced h' back ∧ HeapOk h' ∧ Extends h h') ∧
    ∀ left right : ℕ, IsValue h left → IsValue h right → 0 < h.length left → 0 < h.length right →
      h.length left + h.length right ≤ stringMaxCodeUnits → Balanced h left → Balanced h right →
      ∃ h' a, newConsChecked h left right = .ok (h', a) ∧ units h' a = units h left ++ units h right ∧ Balanced h' a := by
  refine ⟨?_, ?_, ?_⟩
  · intro left right hl hr hlpos hrpos hfits hbl hbr fuel hfuel
    obtain ⟨r, hres, hj⟩ := (split_join_ok fuel).2 h left right hok hl hr hlpos hrpos hfits hfuel
    exact ⟨r.1, r.2, hres, hj.units, hj.balanced hbl hbr, hj.ok, hj.ext⟩
  · intro a offset ha hpos hlt hb fuel hfuel
    obtain ⟨r, hres, hs⟩ := (split_join_ok fuel).1 h a offset hok ha hpos hlt hfuel
    obtain ⟨hbf, hbb⟩ := hs.balanced hb
    exact ⟨r.1, r.2.1, r.2.2, hres, hs.unitsFront, hs.unitsBack, hbf, hbb, hs.ok, hs.ext⟩
  · intro left right hl hr hlpos hrpos hfits hbl hbr
    have hspec := newConsChecked_spec hok hl hr hlpos hrpos
    rw [if_pos hfits] at hspec
    obtain ⟨r, hres, hc⟩ := hspec
    exact ⟨r.1, r.2, hres, hc.units, hc.balanced hbl hbr⟩

def emptyHeap : StringHeap := ⟨[], fun _ => none, fun _ => 0, fun _ => none⟩

theorem emptyHeap_ok : HeapOk emptyHeap := ⟨nofun, nofun⟩

def heavyHeap : StringHeap :=
  (newConsNode (newFlat (newFlat emptyHeap .owned (.latin1 (List.replicate 40 0x61))).1 .inline (.latin1 [0x62, 0x63, 0x64])).1
    0 1).1

theorem heavyHeap_ok : HeapOk heavyHeap := by
  have h1 := newFlat_makes emptyHeap_ok .owned (.latin1 (List.replicate 40 0x61)) (by decide)
  have h2 := newFlat_makes h1.ok .inline (.latin1 [0x62, 0x63, 0x64]) (by decide)
  exact (newConsNode_makes h2.ok (⟨by decide, by decide⟩ : IsValue _ 0) h2.value (by decide) (by decide) (by decide)
    (childOk_of_leaf (by decide)) (childOk_of_leaf (by decide))).1.ok

theorem rope_balance_heavy : ∃ h' a, join 47 heavyHeap 2 1 = some (h', a) ∧
    units h' a = units heavyHeap 2 ++ units heavyHeap 1 ∧ Balanced h' a := by
  have hleaf : ∀ c, heavyHeap.isCons c = false → ∀ n, ChildOk heavyHeap c n := fun c hc n => childOk_of_leaf hc
  have hleft : Balanced heavyHeap 2 :=
    .node (show (heavyHeap.get 2).storage = .cons true 0 1 from rfl) (.leaf (by decide)) (.leaf (by decide))
      (hleaf 0 (by decide) _) (hleaf 1 (by decide) _)
  obtain ⟨h', a, hjoin, hunits, hbal, -⟩ := (rope_balance heavyHeap heavyHeap_ok).1 2 1 ⟨by decide, by decide⟩
    ⟨by decide, by decide⟩ (by decide) (by decide) (by decide) hleft (.leaf (by decide)) 47 (by decide)
  exact ⟨h', a, hjoin, hunits, hbal⟩

end Maligator.HeapString
