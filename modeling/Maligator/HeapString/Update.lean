/-
Changes in place.

A cell's hash can be filled in, a leaf can change its encoding, a concatenation can become a leaf, and an append buffer can
grow. `set_leaf` covers the last three: the new payload starts with the units the cell had, and only a buffer's is longer.
No value reads past the part of a buffer it was made from, so every value keeps its units.
-/
import Maligator.HeapString.Copy

namespace Maligator.HeapString

open Text

/-- **Every value denotes what it did.** -/
structure Keeps (h h' : StringHeap) : Prop where
  ok : HeapOk h'
  size : h.size ≤ h'.size
  value : ∀ a, IsValue h a → IsValue h' a
  units : ∀ a, IsValue h a → units h' a = units h a
  weighted : Weighted h → Weighted h'

namespace Keeps

variable {h h' h'' : StringHeap}

theorem refl (hok : HeapOk h) : Keeps h h := ⟨hok, le_rfl, fun _ ha => ha, fun _ _ => rfl, id⟩

theorem trans (h1 : Keeps h h') (h2 : Keeps h' h'') : Keeps h h'' :=
  ⟨h2.ok, h1.size.trans h2.size, fun a ha => h2.value a (h1.value a ha),
    fun a ha => (h2.units a (h1.value a ha)).trans (h1.units a ha), h2.weighted ∘ h1.weighted⟩

end Keeps

theorem Extends.keeps {h h' : StringHeap} (hok : HeapOk h) (hok' : HeapOk h') (hx : Extends h h')
    (hw : Weighted h → Weighted h') : Keeps h h' :=
  ⟨hok', hx.size, fun _ ha => hx.value ha, fun _ ha => hx.units hok ha.1, hw⟩

section Set

variable {h : StringHeap} {a : ℕ} {cell : MalString}

theorem size_set (h : StringHeap) (a : ℕ) (cell : MalString) : (h.set a cell).size = h.size := List.length_set

theorem get_set_self (ha : a < h.size) : (h.set a cell).get a = cell := by
  rw [StringHeap.get, StringHeap.set, List.getD_eq_getElem?_getD, List.getElem?_set_self ha, Option.getD_some]

theorem get_set_ne {b : ℕ} (hne : b ≠ a) : (h.set a cell).get b = h.get b := by
  rw [StringHeap.get, StringHeap.get, StringHeap.set, List.getD_eq_getElem?_getD, List.getD_eq_getElem?_getD,
    List.getElem?_set_ne (Ne.symm hne)]

/-! ## Weights -/

theorem Weighted.congr {h' : StringHeap} (hsize : h'.size = h.size) (hs : ∀ b, (h'.get b).storage = (h.get b).storage)
    (hl : ∀ b, h'.length b = h.length b) (hw : Weighted h) : Weighted h' := by
  have hchild : ∀ {c n}, ChildOk h c n → ChildOk h' c n := by
    intro c n w
    rwa [ChildOk, StringHeap.isCons, hs, ← StringHeap.isCons, hl]
  intro a latin1 left right ha hcons
  obtain ⟨wl, wr⟩ := hw a latin1 left right (hsize ▸ ha) ((hs a).symm.trans hcons)
  rw [hl]
  exact ⟨hchild wl, hchild wr⟩

/-- a cell that stops being a concatenation weighs on none above it -/
theorem weighted_set (ha : a < h.size) (hleaf : ∀ latin1 left right, cell.storage ≠ .cons latin1 left right) (hw : Weighted h) :
    Weighted (h.set a cell) := by
  have hne : ∀ {c latin1 left right}, ((h.set a cell).get c).storage = .cons latin1 left right → c ≠ a := by
    rintro c latin1 left right hs rfl
    rw [get_set_self ha] at hs
    exact hleaf latin1 left right hs
  have hchild : ∀ {c n}, ChildOk h c n → ChildOk (h.set a cell) c n := by
    intro c n w hcons
    obtain ⟨_, _, _, hs⟩ := storage_of_isCons hcons
    rw [StringHeap.isCons, get_set_ne (hne hs), ← StringHeap.isCons] at hcons
    rw [StringHeap.length, get_set_ne (hne hs)]
    exact w hcons
  intro b latin1 left right hb hs
  have hget : (h.set a cell).get b = h.get b := get_set_ne (hne hs)
  rw [hget] at hs
  obtain ⟨wl, wr⟩ := hw b latin1 left right (size_set h a cell ▸ hb) hs
  rw [StringHeap.length, hget]
  exact ⟨hchild wl, hchild wr⟩

/-! ## Hashes -/

theorem unitsFrom_set_same (ha : a < h.size) (hs : cell.storage = (h.get a).storage) (hl : cell.length = (h.get a).length) :
    ∀ fuel b, unitsFrom (h.set a cell) fuel b = unitsFrom h fuel b := by
  have hget : ∀ b, ((h.set a cell).get b).storage = (h.get b).storage ∧ ((h.set a cell).get b).length = (h.get b).length := by
    intro b
    by_cases hb : b = a
    · rw [hb, get_set_self ha]
      exact ⟨hs, hl⟩
    · rw [get_set_ne hb]
      exact ⟨rfl, rfl⟩
  intro fuel
  induction fuel with
  | zero => exact fun _ => rfl
  | succ fuel ih =>
    intro b
    rw [unitsFrom, unitsFrom, (hget b).1, (hget b).2]
    cases (h.get b).storage with
    | flat kind payload => rfl
    | builder payload capacity => rfl
    | dependent latin1 parent offset => dsimp only; rw [ih]
    | cons latin1 left right => dsimp only; rw [ih, ih]

theorem set_hash (hok : HeapOk h) (ha : IsValue h a) {hash : UInt64} (hh : hash = hashCodeUnits (units h a)) :
    Keeps h (h.set a { h.get a with hash := hash, hashValid := true }) := by
  generalize hcell : ({ h.get a with hash := hash, hashValid := true } : MalString) = cell
  have hs : cell.storage = (h.get a).storage := by rw [← hcell]
  have hl : cell.length = (h.get a).length := by rw [← hcell]
  have hu : ∀ b, units (h.set a cell) b = units h b := fun b => unitsFrom_set_same ha.1 hs hl _ b
  have hstorage : ∀ b, ((h.set a cell).get b).storage = (h.get b).storage := by
    intro b
    by_cases hb : b = a
    · rw [hb, get_set_self ha.1, hs]
    · rw [get_set_ne hb]
  have hlength : ∀ b, (h.set a cell).length b = h.length b := by
    intro b
    rw [StringHeap.length, StringHeap.length]
    by_cases hb : b = a
    · rw [hb, get_set_self ha.1, hl]
    · rw [get_set_ne hb]
  have hbuilder : ∀ b, (h.set a cell).isBuilder b = h.isBuilder b := by
    intro b
    rw [StringHeap.isBuilder, StringHeap.isBuilder, hstorage]
  have hleaf : ∀ b, (h.set a cell).leaf? b = h.leaf? b := by
    intro b
    rw [StringHeap.leaf?, StringHeap.leaf?, hstorage]
  have hok' : HeapOk (h.set a cell) := by
    constructor
    · intro b hb
      rw [size_set] at hb
      have hc := hok.cell b hb
      refine ⟨(hlength b).le.trans hc.fits, ?_, ?_, ?_⟩
      · refine hc.shape.congr (hstorage b) (hlength b) (fun hbb => ?_) (fun c _ p hp => ⟨p, (hleaf c).trans hp, le_rfl⟩)
          fun c _ hcb => ⟨hlength c, (hbuilder c).trans hcb⟩
        have hne : b ≠ a := by
          rintro rfl
          exact Bool.false_ne_true (ha.2.symm.trans hbb)
        rw [get_set_ne hne]
      · rw [MalString.latin1, hstorage, hu]
        exact hc.narrow
      · by_cases hb : b = a
        · rw [hb, get_set_self ha.1, hu, ← hcell]
          exact fun _ => hh
        · rw [get_set_ne hb, hu]
          exact hc.hash
    · intro slot b hslot
      have ht := hok.tiny slot b hslot
      rw [size_set, hbuilder]
      exact ht
  refine ⟨hok', (size_set h a cell).ge, fun b hb => ?_, fun b _ => hu b, Weighted.congr (size_set h a cell) hstorage hlength⟩
  rw [IsValue, size_set, hbuilder]
  exact hb

/-! ## Leaves -/

/-- the new storage of a leaf: flat, or still an append buffer -/
inductive LeafStorage (h : StringHeap) (a : ℕ) (payload : Segment) : Storage → Prop
  | flat (kind : FlatStorage) : LeafStorage h a payload (.flat kind payload)
  | builder (capacity : ℕ) (hb : h.isBuilder a = true) : LeafStorage h a payload (.builder payload capacity)

/-- what a cell may become in place -/
structure Becomes (h : StringHeap) (a : ℕ) (cell : MalString) (payload : Segment) : Prop where
  storage : LeafStorage h a payload cell.storage
  length : cell.length = payload.units.length
  fits : payload.units.length ≤ stringMaxCodeUnits
  front : units h a <+: payload.units
  same : h.isBuilder a = false → payload.units = units h a
  hash : cell.hashValid = true → cell.hash = hashCodeUnits payload.units
  capacity : ∀ p c, cell.storage = .builder p c → cell.length ≤ c ∧ cell.hashValid = false

variable {payload : Segment}

theorem Becomes.leaf (hb : Becomes h a cell payload) (ha : a < h.size) : (h.set a cell).leaf? a = some payload := by
  have hst := hb.storage
  rw [StringHeap.leaf?, get_set_self ha]
  generalize cell.storage = st at *
  cases hst <;> rfl

theorem Becomes.not_cons (hb : Becomes h a cell payload) (latin1 : Bool) (left right : ℕ) :
    cell.storage ≠ .cons latin1 left right := by
  intro hs
  have hst := hb.storage
  rw [hs] at hst
  cases hst

theorem Becomes.isBuilder (hb : Becomes h a cell payload) (ha : a < h.size) (hnb : h.isBuilder a = false) :
    (h.set a cell).isBuilder a = false := by
  have hst := hb.storage
  rw [StringHeap.isBuilder, get_set_self ha]
  generalize cell.storage = st at *
  cases hst with
  | flat kind => rfl
  | builder capacity hb => rw [hb] at hnb; cases hnb

theorem Becomes.slice (hb : Becomes h a cell payload) {offset length : ℕ} (hle : offset + length ≤ (units h a).length) :
    (payload.units.drop offset).take length = ((HeapString.units h a).drop offset).take length := by
  obtain ⟨extra, hextra⟩ := hb.front
  rw [← hextra]
  exact slice_append_left hle

theorem unitsFrom_set_leaf (hok : HeapOk h) (ha : a < h.size) (hb : Becomes h a cell payload) : ∀ fuel b, b < h.size →
    b < fuel → b ≠ a → unitsFrom (h.set a cell) fuel b = units h b := by
  have hself : ∀ fuel, 0 < fuel → unitsFrom (h.set a cell) fuel a = payload.units := fun fuel hf =>
    unitsFrom_of_leaf (hb.leaf ha) hf
  intro fuel
  induction fuel with
  | zero => exact nofun
  | succ fuel ih =>
    intro b hbs hbf hne
    rw [unitsFrom, get_set_ne hne]
    cases hs : (h.get b).storage with
    | flat kind p | builder p capacity => exact (units_of_leaf (by rw [StringHeap.leaf?, hs])).symm
    | dependent latin1 parent offset =>
      obtain ⟨hp, p, hleaf, hle⟩ := hok.dependent hbs hs
      rw [units_dependent hok hbs hs]
      dsimp only
      by_cases hpa : parent = a
      · rw [hpa, hself fuel (by omega)]
        refine hb.slice ?_
        rw [← hpa, units_of_leaf hleaf]
        exact hle
      · rw [ih parent (by omega) (by omega) hpa]
        rfl
    | cons latin1 left right =>
      obtain ⟨hl, hr, -, -, -, hlb, hrb⟩ := hok.cons hbs hs
      have hchild : ∀ c, c < b → h.isBuilder c = false → unitsFrom (h.set a cell) fuel c = units h c := by
        intro c hc hcb
        by_cases hca : c = a
        · rw [hca, hself fuel (by omega)]
          exact hb.same (hca ▸ hcb)
        · exact ih c (by omega) (by omega) hca
      rw [units_cons hok hbs hs]
      dsimp only
      rw [hchild left hl hlb, hchild right hr hrb]

theorem set_leaf (hok : HeapOk h) (ha : a < h.size) (hb : Becomes h a cell payload) :
    Keeps h (h.set a cell) := by
  have hself : units (h.set a cell) a = payload.units := units_of_leaf (hb.leaf ha)
  have hne : ∀ b, b < h.size → b ≠ a → units (h.set a cell) b = units h b := fun b hbs hba =>
    unitsFrom_set_leaf hok ha hb (b + 1) b hbs (Nat.lt_succ_self b) hba
  have hval : ∀ b, IsValue h b → IsValue (h.set a cell) b ∧ units (h.set a cell) b = units h b ∧
      (h.set a cell).length b = h.length b := by
    intro b hbv
    rw [IsValue, size_set, StringHeap.length]
    by_cases hba : b = a
    · rw [hba] at hbv ⊢
      rw [get_set_self ha, hb.length, hself, hb.same hbv.2]
      exact ⟨⟨ha, hb.isBuilder ha hbv.2⟩, rfl, length_units hok a ha⟩
    · rw [StringHeap.isBuilder, get_set_ne hba]
      exact ⟨hbv, hne b hbv.1 hba, rfl⟩
  have hok' : HeapOk (h.set a cell) := by
    constructor
    · intro b hbs
      rw [size_set] at hbs
      by_cases hba : b = a
      · subst hba
        refine ⟨?_, ?_, ?_, ?_⟩
        · rw [StringHeap.length, get_set_self ha, hb.length]
          exact hb.fits
        · unfold ShapeOk
          rw [StringHeap.length, get_set_self ha, hb.length]
          have hcap := hb.capacity
          have hst := hb.storage
          cases hs : cell.storage with
          | flat kind p =>
            rw [hs] at hst
            cases hst
            rfl
          | builder p c =>
            rw [hs] at hst
            cases hst
            have := hcap payload c hs
            rw [hb.length] at this
            exact ⟨rfl, this⟩
          | dependent latin1 parent offset | cons latin1 left right => rw [hs] at hst; cases hst
        · have hst := hb.storage
          rw [hself, get_set_self ha, MalString.latin1]
          generalize cell.storage = st at hst
          cases hst <;> exact narrow_of_payload
        · rw [hself, get_set_self ha]
          exact hb.hash
      · have hc := hok.cell b hbs
        have hget : (h.set a cell).get b = h.get b := get_set_ne hba
        have hl : (h.set a cell).length b = h.length b := by rw [StringHeap.length, hget, StringHeap.length]
        refine ⟨hl.le.trans hc.fits, ?_, ?_, ?_⟩
        · refine hc.shape.congr (by rw [hget]) hl (fun _ => by rw [hget]) (fun c _ p hp => ?_) fun c _ hcb => ?_
          · by_cases hca : c = a
            · refine ⟨payload, hca ▸ hb.leaf ha, ?_⟩
              rw [← units_of_leaf hp, hca]
              exact hb.front.length_le
            · exact ⟨p, by rw [StringHeap.leaf?, get_set_ne hca]; exact hp, le_rfl⟩
          · have hcv : IsValue h c := ⟨by omega, hcb⟩
            exact ⟨(hval c hcv).2.2, (hval c hcv).1.2⟩
        · rw [hget, hne b hbs hba]
          exact hc.narrow
        · rw [hget, hne b hbs hba]
          exact hc.hash
    · intro slot b hslot
      exact (hval b (hok.tiny slot b hslot)).1
  exact ⟨hok', (size_set h a cell).ge, fun b hb => (hval b hb).1, fun b hb => (hval b hb).2.1, weighted_set ha hb.not_cons⟩

end Set

end Maligator.HeapString
