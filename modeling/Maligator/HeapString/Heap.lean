/-
Heap strings: the cells of heap_string.h and what they denote.

A string is a flat leaf (its units in the cell, owned, borrowed or with a UTF-8 sidecar: the difference is only where the
bytes live), a dependent slice of a flat parent, a lazy concatenation, or an append buffer, which is never a value of the
language itself. Cells refer to each other by address; a cell only ever refers to older ones, so a string's units are
found by walking down. Leaves can be widened, concatenations flattened and append buffers extended in place.

`HeapOk`: every cell is well formed, its Latin-1 bit is sound and its cached hash, if valid, is that of its units.
`Extends` is allocation alone, `Keeps` is any change that leaves every value's units as they were.
Allocation and collection never fail here, and the cells a program holds are not collected.
-/
import Maligator.Text.Units

namespace Maligator.HeapString

open Text

def inlineCodeUnits : ℕ := 8

def inlineLatin1CodeUnits : ℕ := 16

/-- the storage tags below DEPENDENT -/
inductive FlatStorage where
  | owned
  | inline
  | external
  | preparedUtf8
  deriving DecidableEq, Repr

/-- storage with its part of the union; a leaf's Latin-1 bit is the encoding of its payload -/
inductive Storage where
  | flat (kind : FlatStorage) (payload : Segment)
  | dependent (latin1 : Bool) (parent sliceOffset : ℕ)
  | cons (latin1 : Bool) (left right : ℕ)
  /-- the capacity is kept in the hash field, which a buffer does not use -/
  | builder (payload : Segment) (capacity : ℕ)
  deriving DecidableEq, Repr

structure MalString where
  length : ℕ
  hash : UInt64
  hashValid : Bool
  propertyAtom : Bool
  storage : Storage
  deriving DecidableEq, Repr

/-- mal_string_init_flat: a cell without a hash -/
def initFlat (storage : Storage) (length : ℕ) : MalString := ⟨length, 0, false, false, storage⟩

structure StringHeap where
  cells : List MalString
  /-- the tiny string cache: the cell remembered in a slot -/
  tinyCache : ℕ → Option ℕ
  /-- the slot of a short text; it only has to be a function of the units -/
  tinyIndex : List UInt16 → ℕ
  /-- what the allocator reports for a leaf with a UTF-8 sidecar, in units -/
  sidecarUnits : ℕ → Option ℕ

namespace StringHeap

section

variable (h : StringHeap) (a : ℕ)

def size : ℕ := h.cells.length

def get : MalString := h.cells.getD a (initFlat (.flat .inline (.latin1 [])) 0)

/-- mal_heap_alloc: the cell and its address -/
def alloc (cell : MalString) : StringHeap × ℕ := ({ h with cells := h.cells ++ [cell] }, h.size)

def set (h : StringHeap) (a : ℕ) (cell : MalString) : StringHeap := { h with cells := h.cells.set a cell }

def length (h : StringHeap) (a : ℕ) : ℕ := (h.get a).length

def isCons : Bool :=
  match (h.get a).storage with
  | .cons .. => true
  | _ => false

def isBuilder : Bool :=
  match (h.get a).storage with
  | .builder .. => true
  | _ => false

/-- storage < MAL_STRING_STORAGE_DEPENDENT, with the payload -/
def flat? : Option Segment :=
  match (h.get a).storage with
  | .flat _ payload => some payload
  | _ => none

def leaf? : Option Segment :=
  match (h.get a).storage with
  | .flat _ payload => some payload
  | .builder payload _ => some payload
  | _ => none

end

end StringHeap

def isLatin1 : Segment → Bool
  | .latin1 _ => true
  | .utf16 _ => false

def MalString.latin1 (s : MalString) : Bool :=
  match s.storage with
  | .flat _ payload => isLatin1 payload
  | .dependent latin1 _ _ => latin1
  | .cons latin1 _ _ => latin1
  | .builder payload _ => isLatin1 payload

/-! ## Denotation -/

/-- the units below a cell, looking at most `fuel` levels down -/
def unitsFrom (h : StringHeap) : ℕ → ℕ → List UInt16
  | 0, _ => []
  | fuel + 1, a =>
    match (h.get a).storage with
    | .flat _ payload => payload.units
    | .builder payload _ => payload.units
    | .dependent _ parent offset => ((unitsFrom h fuel parent).drop offset).take (h.get a).length
    | .cons _ left right => unitsFrom h fuel left ++ unitsFrom h fuel right

/-- **What a string denotes.** A cell refers to older cells, so its address bounds the depth. -/
def units (h : StringHeap) (a : ℕ) : List UInt16 := unitsFrom h (a + 1) a

def hashMask : UInt64 := 0x1ffffffffffffff

def fnvPrime : UInt64 := 0x100000001b3

/-- one unit of the FNV hash: its low byte, then its high byte -/
def hashUnit (hash : UInt64) (unit : UInt16) : UInt64 :=
  (((hash ^^^ unit.toUInt8.toUInt64) * fnvPrime) ^^^ (unit >>> 8).toUInt8.toUInt64) * fnvPrime

def hashCodeUnits (units : List UInt16) : UInt64 := units.foldl hashUnit 0xcbf29ce484222325 &&& hashMask

/-- mal_string_hash_segment: over bytes, one multiplication by the square of the prime -/
def hashSegment (hash : UInt64) : Segment → UInt64
  | .latin1 bytes => bytes.foldl (fun hash byte => (hash ^^^ byte.toUInt64) * 0x366000002e329) hash
  | .utf16 units => units.foldl hashUnit hash

/-! ## Well formed heaps -/

/-- what the storage of cell a may refer to -/
def ShapeOk (h : StringHeap) (a : ℕ) : Prop :=
  match (h.get a).storage with
  | .flat _ payload => payload.units.length = h.length a
  | .builder payload capacity =>
    payload.units.length = h.length a ∧ h.length a ≤ capacity ∧ (h.get a).hashValid = false
  | .dependent _ parent offset =>
    parent < a ∧ ∃ payload, h.leaf? parent = some payload ∧ offset + h.length a ≤ payload.units.length
  | .cons _ left right => left < a ∧ right < a ∧ 0 < h.length left ∧ 0 < h.length right ∧
      h.length a = h.length left + h.length right ∧ h.isBuilder left = false ∧ h.isBuilder right = false

structure CellOk (h : StringHeap) (a : ℕ) : Prop where
  fits : h.length a ≤ stringMaxCodeUnits
  shape : ShapeOk h a
  narrow : (h.get a).latin1 = true → ∀ u ∈ units h a, u.toNat ≤ 0xFF
  hash : (h.get a).hashValid = true → (h.get a).hash = hashCodeUnits (units h a)

structure HeapOk (h : StringHeap) : Prop where
  cell : ∀ a, a < h.size → CellOk h a
  tiny : ∀ slot a, h.tinyCache slot = some a → a < h.size ∧ h.isBuilder a = false

/-- an address a program can hold -/
def IsValue (h : StringHeap) (a : ℕ) : Prop := a < h.size ∧ h.isBuilder a = false

/-- a concatenation of more than 32 units takes at most three quarters of its parent -/
def ChildOk (h : StringHeap) (child length : ℕ) : Prop :=
  h.isCons child = true → 32 < h.length child → h.length child ≤ 3 * length / 4

/-- every concatenation in the heap keeps the weight bound -/
def Weighted (h : StringHeap) : Prop :=
  ∀ a latin1 left right, a < h.size → (h.get a).storage = .cons latin1 left right →
    ChildOk h left (h.length a) ∧ ChildOk h right (h.length a)

/-! ## Units of a well formed heap -/

section Units

variable {h : StringHeap} {a : ℕ} {payload : Segment} {latin1 : Bool}

variable {offset left right fuel : ℕ}

theorem HeapOk.dependent (hok : HeapOk h) {parent : ℕ} (ha : a < h.size)
    (hs : (h.get a).storage = .dependent latin1 parent offset) :
    parent < a ∧ ∃ payload, h.leaf? parent = some payload ∧ offset + h.length a ≤ payload.units.length := by
  have hshape := (hok.cell a ha).shape
  rwa [ShapeOk, hs] at hshape

theorem HeapOk.cons (hok : HeapOk h) (ha : a < h.size) (hs : (h.get a).storage = .cons latin1 left right) :
    left < a ∧ right < a ∧ 0 < h.length left ∧ 0 < h.length right ∧ h.length a = h.length left + h.length right ∧
      h.isBuilder left = false ∧ h.isBuilder right = false := by
  have hshape := (hok.cell a ha).shape
  rwa [ShapeOk, hs] at hshape

theorem unitsFrom_stable (hok : HeapOk h) (fuel a : ℕ) (ha : a < h.size) (hfuel : a < fuel) :
    unitsFrom h fuel a = units h a := by
  induction fuel using Nat.strong_induction_on generalizing a with
  | _ fuel ih =>
    -- two fuels above the address agree, level by level
    have hgen : ∀ f g b, b < h.size → b < f → b < g → f ≤ fuel → unitsFrom h f b = unitsFrom h g b := by
      intro f
      induction f with
      | zero => exact nofun
      | succ f ihf =>
        intro g b hb hbf hbg hle
        obtain ⟨g, rfl⟩ : ∃ g', g = g' + 1 := ⟨g - 1, by omega⟩
        rw [unitsFrom, unitsFrom]
        cases hs : (h.get b).storage with
        | flat kind payload | builder payload capacity => rfl
        | dependent latin1 parent offset =>
          have hp := hok.dependent hb hs
          dsimp only
          rw [ihf g parent (by omega) (by omega) (by omega) (by omega)]
        | cons latin1 left right =>
          have hc := hok.cons hb hs
          dsimp only
          rw [ihf g left (by omega) (by omega) (by omega) (by omega), ihf g right (by omega) (by omega) (by omega) (by omega)]
    exact hgen fuel (a + 1) a ha hfuel (Nat.lt_succ_self a) le_rfl

theorem unitsFrom_of_leaf (hleaf : h.leaf? a = some payload) (hfuel : 0 < fuel) :
    unitsFrom h fuel a = payload.units := by
  obtain ⟨n, rfl⟩ : ∃ n, fuel = n + 1 := ⟨fuel - 1, by omega⟩
  rw [unitsFrom]
  unfold StringHeap.leaf? at hleaf
  cases hs : (h.get a).storage <;> rw [hs] at hleaf <;> cases hleaf <;> rfl

theorem units_of_leaf (hleaf : h.leaf? a = some payload) : units h a = payload.units :=
  unitsFrom_of_leaf hleaf (Nat.succ_pos a)

theorem isCons_of_leaf (hleaf : h.leaf? a = some payload) : h.isCons a = false := by
  unfold StringHeap.leaf? at hleaf
  unfold StringHeap.isCons
  cases hs : (h.get a).storage with
  | cons latin1 left right => rw [hs] at hleaf; cases hleaf
  | _ => rfl

theorem leaf_of_flat (hflat : h.flat? a = some payload) : h.leaf? a = some payload := by
  unfold StringHeap.flat? at hflat
  unfold StringHeap.leaf?
  cases hs : (h.get a).storage <;> rw [hs] at hflat <;> cases hflat
  rfl

theorem units_dependent (hok : HeapOk h) {parent : ℕ} (ha : a < h.size)
    (hs : (h.get a).storage = .dependent latin1 parent offset) :
    units h a = ((units h parent).drop offset).take (h.length a) := by
  have hp := (hok.dependent ha hs).1
  rw [units, unitsFrom, hs]
  dsimp only
  rw [unitsFrom_stable hok a parent (by omega) hp]
  rfl

theorem units_cons (hok : HeapOk h) (ha : a < h.size)
    (hs : (h.get a).storage = .cons latin1 left right) : units h a = units h left ++ units h right := by
  obtain ⟨hl, hr, -⟩ := hok.cons ha hs
  rw [units, unitsFrom, hs]
  dsimp only
  rw [unitsFrom_stable hok a left (by omega) hl, unitsFrom_stable hok a right (by omega) hr]

theorem length_units (hok : HeapOk h) : ∀ a, a < h.size → (units h a).length = h.length a := by
  intro a
  induction a using Nat.strong_induction_on with
  | _ a ih =>
    intro ha
    have hshape := (hok.cell a ha).shape
    unfold ShapeOk at hshape
    cases hs : (h.get a).storage with
    | flat kind payload =>
      rw [hs] at hshape
      rw [units_of_leaf (show h.leaf? a = some payload by rw [StringHeap.leaf?, hs])]
      exact hshape
    | builder payload capacity =>
      rw [hs] at hshape
      rw [units_of_leaf (show h.leaf? a = some payload by rw [StringHeap.leaf?, hs])]
      exact hshape.1
    | dependent latin1 parent offset =>
      obtain ⟨-, payload, hleaf, hle⟩ := hok.dependent ha hs
      rw [units_dependent hok ha hs, units_of_leaf hleaf, List.length_take, List.length_drop]
      omega
    | cons latin1 left right =>
      obtain ⟨hl, hr, -, -, hlen, -⟩ := hok.cons ha hs
      rw [units_cons hok ha hs, List.length_append, ih left hl (by omega), ih right hr (by omega), hlen]

theorem storage_of_isCons (hc : h.isCons a = true) : ∃ latin1 left right, (h.get a).storage = .cons latin1 left right := by
  unfold StringHeap.isCons at hc
  cases hs : (h.get a).storage with
  | cons latin1 left right => exact ⟨latin1, left, right, rfl⟩
  | _ => rw [hs] at hc; cases hc

theorem cons_parts (hok : HeapOk h) (ha : a < h.size)
    (hs : (h.get a).storage = .cons latin1 left right) : left < h.size ∧ right < h.size ∧ 0 < h.length left ∧
      0 < h.length right ∧ h.length a = h.length left + h.length right := by
  obtain ⟨h1, h2, h3, h4, h5, -⟩ := hok.cons ha hs
  exact ⟨by omega, by omega, h3, h4, h5⟩

theorem length_pos_of_isCons (hok : HeapOk h) (ha : a < h.size) (hc : h.isCons a = true) : 0 < h.length a := by
  obtain ⟨latin1, left, right, hs⟩ := storage_of_isCons hc
  obtain ⟨-, -, h3, -, h5⟩ := cons_parts hok ha hs
  omega

theorem ShapeOk.congr {h' : StringHeap} (hshape : ShapeOk h a) (hs : (h'.get a).storage = (h.get a).storage)
    (hl : h'.length a = h.length a) (hv : h.isBuilder a = true → (h'.get a).hashValid = (h.get a).hashValid)
    (hleaf : ∀ b < a, ∀ payload, h.leaf? b = some payload →
      ∃ payload', h'.leaf? b = some payload' ∧ payload.units.length ≤ payload'.units.length)
    (hchild : ∀ b < a, h.isBuilder b = false → h'.length b = h.length b ∧ h'.isBuilder b = false) : ShapeOk h' a := by
  unfold ShapeOk at hshape ⊢
  rw [hs, hl]
  cases hst : (h.get a).storage with
  | flat kind payload => rw [hst] at hshape; exact hshape
  | builder payload capacity =>
    rw [hst] at hshape
    exact ⟨hshape.1, hshape.2.1, (hv (by rw [StringHeap.isBuilder, hst])).trans hshape.2.2⟩
  | dependent latin1 parent offset =>
    rw [hst] at hshape
    obtain ⟨hp, payload, hpayload, hle⟩ := hshape
    obtain ⟨payload', hpayload', hle'⟩ := hleaf parent hp payload hpayload
    exact ⟨hp, payload', hpayload', hle.trans hle'⟩
  | cons latin1 left right =>
    rw [hst] at hshape
    obtain ⟨hl, hr, h1, h2, h3, h4, h5⟩ := hshape
    obtain ⟨hll, hlb⟩ := hchild left hl h4
    obtain ⟨hrl, hrb⟩ := hchild right hr h5
    dsimp only
    rw [hll, hrl]
    exact ⟨hl, hr, h1, h2, h3, hlb, hrb⟩

end Units

/-! ## Allocation -/

/-- cells were added, none was changed -/
structure Extends (h h' : StringHeap) : Prop where
  size : h.size ≤ h'.size
  get : ∀ a, a < h.size → h'.get a = h.get a

namespace Extends

variable {h h' h'' : StringHeap}

theorem refl (h : StringHeap) : Extends h h := ⟨le_rfl, fun _ _ => rfl⟩

theorem trans (h1 : Extends h h') (h2 : Extends h' h'') : Extends h h'' :=
  ⟨h1.size.trans h2.size, fun a ha => (h2.get a (lt_of_lt_of_le ha h1.size)).trans (h1.get a ha)⟩

variable {a : ℕ}

theorem length (hx : Extends h h') (ha : a < h.size) : h'.length a = h.length a := by
  rw [StringHeap.length, hx.get a ha, StringHeap.length]

theorem isBuilder (hx : Extends h h') (ha : a < h.size) : h'.isBuilder a = h.isBuilder a := by
  rw [StringHeap.isBuilder, hx.get a ha, StringHeap.isBuilder]

theorem isCons (hx : Extends h h') (ha : a < h.size) : h'.isCons a = h.isCons a := by
  rw [StringHeap.isCons, hx.get a ha, StringHeap.isCons]

theorem leaf (hx : Extends h h') (ha : a < h.size) : h'.leaf? a = h.leaf? a := by
  rw [StringHeap.leaf?, hx.get a ha, StringHeap.leaf?]

theorem value (hx : Extends h h') (ha : IsValue h a) : IsValue h' a :=
  ⟨lt_of_lt_of_le ha.1 hx.size, (hx.isBuilder ha.1).trans ha.2⟩

theorem unitsFrom (hok : HeapOk h) (hx : Extends h h') : ∀ fuel a, a < h.size → unitsFrom h' fuel a = unitsFrom h fuel a := by
  intro fuel
  induction fuel with
  | zero => exact fun _ _ => rfl
  | succ fuel ih =>
    intro b hb
    rw [HeapString.unitsFrom, HeapString.unitsFrom, hx.get b hb]
    cases hs : (h.get b).storage with
    | flat kind payload => rfl
    | builder payload capacity => rfl
    | dependent latin1 parent offset =>
      have hp := (hok.dependent hb hs).1
      dsimp only
      rw [ih parent (by omega)]
    | cons latin1 left right =>
      obtain ⟨hl, hr, -⟩ := hok.cons hb hs
      dsimp only
      rw [ih left (by omega), ih right (by omega)]

theorem units (hok : HeapOk h) (hx : Extends h h') (ha : a < h.size) : units h' a = units h a :=
  hx.unitsFrom hok (a + 1) a ha

theorem cellOk (hok : HeapOk h) (hx : Extends h h') (ha : a < h.size) : CellOk h' a := by
  have hc := hok.cell a ha
  have hget := hx.get a ha
  refine ⟨(hx.length ha).le.trans hc.fits, hc.shape.congr (by rw [hget]) (hx.length ha) (fun _ => by rw [hget]) ?_ ?_, ?_, ?_⟩
  · intro b hb payload hleaf
    exact ⟨payload, (hx.leaf (hb.trans ha)).trans hleaf, le_rfl⟩
  · intro b hb hnb
    exact ⟨hx.length (hb.trans ha), (hx.isBuilder (hb.trans ha)).trans hnb⟩
  · rw [hget, hx.units hok ha]
    exact hc.narrow
  · rw [hget, hx.units hok ha]
    exact hc.hash

end Extends

section

variable (h : StringHeap) (cell : MalString)

theorem get_alloc_of_lt {a : ℕ} (ha : a < h.size) : (h.alloc cell).1.get a = h.get a := by
  rw [StringHeap.get, StringHeap.get, StringHeap.alloc, List.getD_append _ _ _ _ ha]

theorem get_alloc : (h.alloc cell).1.get h.size = cell := by
  simp [StringHeap.get, StringHeap.alloc, StringHeap.size]

theorem size_alloc : (h.alloc cell).1.size = h.size + 1 := by
  simp [StringHeap.alloc, StringHeap.size]

theorem extends_alloc : Extends h (h.alloc cell).1 :=
  ⟨by rw [size_alloc]; omega, fun _ ha => get_alloc_of_lt h cell ha⟩

end

variable {h : StringHeap} {cell : MalString} {payload : Segment}

theorem alloc_ok (hok : HeapOk h) (hcell : CellOk (h.alloc cell).1 h.size) : HeapOk (h.alloc cell).1 := by
  have hx := extends_alloc h cell
  constructor
  · intro a ha
    rw [size_alloc] at ha
    rcases Nat.lt_succ_iff_lt_or_eq.1 ha with ha | rfl
    · exact hx.cellOk hok ha
    · exact hcell
  · intro slot a hslot
    have ht := hok.tiny slot a hslot
    exact ⟨lt_of_lt_of_le ht.1 hx.size, (hx.isBuilder ht.1).trans ht.2⟩

theorem ChildOk.mono {h' : StringHeap} {c n : ℕ} (w : ChildOk h c n) (hx : Extends h h') (hc : c < h.size) : ChildOk h' c n := by
  rw [ChildOk, hx.isCons hc, hx.length hc]
  exact w

theorem weighted_alloc (hok : HeapOk h) (hcell : ∀ latin1 left right, cell.storage = .cons latin1 left right →
      left < h.size ∧ right < h.size ∧ ChildOk h left cell.length ∧ ChildOk h right cell.length) (hw : Weighted h) :
    Weighted (h.alloc cell).1 := by
  have hx := extends_alloc h cell
  intro a latin1 left right ha hs
  rw [size_alloc] at ha
  rcases Nat.lt_succ_iff_lt_or_eq.1 ha with ha | rfl
  · rw [get_alloc_of_lt h cell ha] at hs
    obtain ⟨hl, hr, -⟩ := cons_parts hok ha hs
    obtain ⟨wl, wr⟩ := hw a latin1 left right ha hs
    rw [hx.length ha]
    exact ⟨wl.mono hx hl, wr.mono hx hr⟩
  · rw [get_alloc] at hs
    obtain ⟨hl, hr, wl, wr⟩ := hcell latin1 left right hs
    rw [StringHeap.length, get_alloc]
    exact ⟨wl.mono hx hl, wr.mono hx hr⟩

/-- **The outcome of an operation that only allocates**: a value that denotes `new` -/
structure Makes (h : StringHeap) (new : List UInt16) (r : StringHeap × ℕ) : Prop where
  ok : HeapOk r.1
  ext : Extends h r.1
  value : IsValue r.1 r.2
  units : units r.1 r.2 = new
  weighted : Weighted h → Weighted r.1

/-- the same, and the value is no concatenation -/
structure MakesLeaf (h : StringHeap) (new : List UInt16) (r : StringHeap × ℕ) : Prop extends Makes h new r where
  leaf : r.1.isCons r.2 = false

theorem narrow_of_payload (h : isLatin1 payload = true) : ∀ u ∈ payload.units, u.toNat ≤ 0xFF := by
  cases payload with
  | utf16 units => cases h
  | latin1 bytes =>
    intro u hu
    obtain ⟨b, -, rfl⟩ := List.mem_map.1 hu
    rw [UInt8.toNat_toUInt16]
    have := b.toNat_lt
    omega

theorem alloc_flat (hok : HeapOk h) {kind : FlatStorage}
    (hs : cell.storage = .flat kind payload) (hlen : cell.length = payload.units.length)
    (hfits : payload.units.length ≤ stringMaxCodeUnits)
    (hhash : cell.hashValid = true → cell.hash = hashCodeUnits payload.units) :
    MakesLeaf h payload.units (h.alloc cell) := by
  have hget := get_alloc h cell
  have hunits : units (h.alloc cell).1 h.size = payload.units :=
    units_of_leaf (by rw [StringHeap.leaf?, hget, hs])
  have hcell : CellOk (h.alloc cell).1 h.size := by
    have hl : (h.alloc cell).1.length h.size = payload.units.length := by rw [StringHeap.length, hget, hlen]
    refine ⟨hl.le.trans hfits, ?_, ?_, ?_⟩
    · unfold ShapeOk
      rw [hget, hs]
      exact hl.symm
    · rw [hget, hunits, MalString.latin1, hs]
      exact narrow_of_payload
    · rw [hget, hunits]
      exact hhash
  have hweighted : Weighted h → Weighted (h.alloc cell).1 := fun hw => weighted_alloc hok (fun _ _ _ hcons => by rw [hs] at hcons; cases hcons) hw
  refine ⟨⟨alloc_ok hok hcell, extends_alloc h cell, ⟨?_, ?_⟩, hunits, hweighted⟩, ?_⟩
  · change h.size < _
    rw [size_alloc]
    omega
  · change StringHeap.isBuilder _ h.size = false
    rw [StringHeap.isBuilder, hget, hs]
  · change StringHeap.isCons _ h.size = false
    rw [StringHeap.isCons, hget, hs]

end Maligator.HeapString
