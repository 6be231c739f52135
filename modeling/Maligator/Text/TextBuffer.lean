/-
The growing output buffer of text_buffer.c.

A buffer holds one byte per unit until a wider unit comes, then two; its capacity may be a hint while no storage has been
allocated. Lengths and capacities count code units and stay below the engine's string limit. Allocation is assumed to
succeed; the overflow status is modelled. Buffers are far below SIZE_MAX bytes, so the byte count cannot overflow.

`Ok` is what every operation keeps. `prepare_spec`, `push_spec`, `appendUnits_spec`, `appendLatin1_spec`: within the string
limit each operation succeeds and the content grows by exactly the units given, whatever the encoding.
-/
import Maligator.Text.Units

namespace Maligator.Text

open List

inductive MalTextBufferStatus where
  | ok
  | lengthOverflow
  deriving DecidableEq, Repr

/-- the units written, in the buffer's encoding -/
inductive TextData where
  | latin1 (units : List UInt8)
  | utf16 (units : List UInt16)
  deriving DecidableEq, Repr

def TextData.units : TextData → List UInt16
  | .latin1 units => units.map UInt8.toUInt16
  | .utf16 units => units

def TextData.isUtf16 : TextData → Bool
  | .latin1 _ => false
  | .utf16 _ => true

/-- UTF-16 units stored in the buffer's encoding; a narrow buffer keeps the low byte -/
def TextData.write : TextData → List UInt16 → TextData
  | .latin1 units, new => .latin1 (units ++ new.map UInt16.toUInt8)
  | .utf16 units, new => .utf16 (units ++ new)

def TextData.writeLatin1 : TextData → List UInt8 → TextData
  | .latin1 units, new => .latin1 (units ++ new)
  | .utf16 units, new => .utf16 (units ++ new.map UInt8.toUInt16)

structure MalTextBuffer where
  data : TextData
  /-- data is not null -/
  allocated : Bool
  capacity : ℕ
  status : MalTextBufferStatus
  deriving DecidableEq, Repr

namespace MalTextBuffer

def empty : MalTextBuffer := ⟨.latin1 [], false, 0, .ok⟩

def units (b : MalTextBuffer) : List UInt16 := b.data.units

def length (b : MalTextBuffer) : ℕ := b.units.length

def isUtf16 (b : MalTextBuffer) : Bool := b.data.isUtf16

end MalTextBuffer

def textBufferInitialCapacity : ℕ := 16

/-- the doubling of mal_checked_size_growth; the capacity grows by one at least, so the fuel is `required` -/
def growthLoop (required limit : ℕ) : ℕ → ℕ → ℕ
  | 0, capacity => capacity
  | fuel + 1, capacity =>
    if capacity < required then growthLoop required limit fuel (if capacity > limit / 2 then limit else capacity * 2)
    else capacity

def checkedSizeGrowth (current required initial limit : ℕ) : Option ℕ :=
  if required > limit || current > limit || initial > limit then none
  else
    let capacity := if current = 0 then initial else current
    if capacity = 0 && required ≠ 0 then none else some (growthLoop required limit required capacity)

namespace MalTextBuffer

section

variable (b : MalTextBuffer) (extra : ℕ)

def grow (utf16 : Bool) : MalTextBuffer :=
  if b.status ≠ .ok then b
  else if b.length > stringMaxCodeUnits || extra > stringMaxCodeUnits - b.length then { b with status := .lengthOverflow }
  else
    let required := b.length + extra
    let promote := utf16 && !b.isUtf16
    if required ≤ b.capacity && !promote && (b.allocated || b.capacity = 0) then b
    else
      match if required > b.capacity
        then checkedSizeGrowth b.capacity required textBufferInitialCapacity stringMaxCodeUnits else some b.capacity with
      | none => { b with status := .lengthOverflow }
      | some capacity =>
        -- existing bytes are widened in place, from the back
        let data := if promote then .utf16 b.units else b.data
        if capacity = 0 then { b with data := data } else ⟨data, true, capacity, .ok⟩

def fits : Bool := b.status = .ok && b.allocated && extra ≤ b.capacity - b.length

def prepare (utf16 : Bool) : MalTextBuffer :=
  if b.fits extra && (!utf16 || b.isUtf16) then b else b.grow extra utf16

def reserve : MalTextBuffer := b.prepare extra false

def reserveUtf16 : MalTextBuffer := b.prepare extra true

def hintCapacity : MalTextBuffer :=
  if b.status ≠ .ok then b
  else if b.allocated then b.reserve extra
  else if b.length > stringMaxCodeUnits || extra > stringMaxCodeUnits - b.length then { b with status := .lengthOverflow }
  else
    let required := b.length + extra
    if required > b.capacity then
      { b with capacity := if required < textBufferInitialCapacity then textBufferInitialCapacity else required }
    else b

def push (unit : UInt16) : MalTextBuffer :=
  if b.fits 1 && (b.isUtf16 || unit.toNat ≤ 0xFF) then { b with data := b.data.write [unit] }
  else
    let b := b.prepare 1 (unit.toNat > 0xFF)
    if b.status = .ok then { b with data := b.data.write [unit] } else b

def appendUnits (units : List UInt16) : MalTextBuffer :=
  if b.isUtf16 && b.fits units.length then { b with data := b.data.write units }
  else if units.length = 0 || b.status ≠ .ok then b
  else if units.length > stringMaxCodeUnits - b.length then { b with status := .lengthOverflow }
  else
    let b := b.prepare units.length (b.isUtf16 || !unitsFitLatin1 units)
    if b.status = .ok then { b with data := b.data.write units } else b

def appendLatin1 (units : List UInt8) : MalTextBuffer :=
  if !b.isUtf16 && b.fits units.length then { b with data := b.data.writeLatin1 units }
  else if units.length = 0 then b
  else
    let b := b.prepare units.length false
    if b.status = .ok then { b with data := b.data.writeLatin1 units } else b

/-! ## What the operations keep -/

structure Ok (b : MalTextBuffer) : Prop where
  status : b.status = .ok
  capacity : b.capacity ≤ stringMaxCodeUnits
  room : b.allocated = true → b.length ≤ b.capacity
  unallocated : b.allocated = false → b.length = 0

theorem ok_empty : Ok empty := ⟨rfl, Nat.zero_le _, nofun, fun _ => rfl⟩

theorem growthLoop_spec {required limit : ℕ} (hle : required ≤ limit) (fuel capacity : ℕ) (hpos : 0 < capacity)
    (hcap : capacity ≤ limit) (hfuel : required ≤ capacity + fuel) :
    required ≤ growthLoop required limit fuel capacity ∧
      growthLoop required limit fuel capacity ≤ limit ∧ 0 < growthLoop required limit fuel capacity := by
  induction fuel generalizing capacity with
  | zero => exact ⟨hfuel, hcap, hpos⟩
  | succ fuel ih =>
    rw [growthLoop]
    split_ifs with hlt hhalf
    · exact ih limit (by omega) le_rfl (by omega)
    · exact ih (capacity * 2) (by omega) (by omega) (by omega)
    · exact ⟨by omega, hcap, hpos⟩

theorem checkedSizeGrowth_spec {current required limit : ℕ} (hreq : required ≤ limit) (hcur : current ≤ limit)
    (hinit : textBufferInitialCapacity ≤ limit) :
    ∃ capacity, checkedSizeGrowth current required textBufferInitialCapacity limit = some capacity ∧
      required ≤ capacity ∧ capacity ≤ limit ∧ 0 < capacity := by
  have hpos : 0 < if current = 0 then textBufferInitialCapacity else current := by
    split_ifs with h
    · decide
    · omega
  have hle : (if current = 0 then textBufferInitialCapacity else current) ≤ limit := by split_ifs <;> assumption
  refine ⟨_, ?_, growthLoop_spec hreq required _ hpos hle (by omega)⟩
  rw [checkedSizeGrowth, if_neg (by simp; omega)]
  rw [if_neg (by simp; omega)]

theorem units_promote (promote : Bool) : (if promote = true then TextData.utf16 b.units else b.data).units = b.units := by
  cases promote <;> rfl

theorem isUtf16_promote (utf16 : Bool) :
    (if (utf16 && !b.isUtf16) = true then TextData.utf16 b.units else b.data).isUtf16 = (b.isUtf16 || utf16) := by
  cases hd : b.data <;> cases utf16 <;> simp [isUtf16, hd, TextData.isUtf16]

end

structure Prepared (b : MalTextBuffer) (extra : ℕ) (utf16 : Bool) (b' : MalTextBuffer) : Prop where
  ok : Ok b'
  units : b'.units = b.units
  isUtf16 : b'.isUtf16 = (b.isUtf16 || utf16)
  allocated : b'.allocated = true
  room : b.length + extra ≤ b'.capacity

variable {b : MalTextBuffer} {extra : ℕ} {b' : MalTextBuffer} {new : List UInt16}

theorem grow_spec (h : Ok b) (hpos : 0 < extra)
    (hle : b.length + extra ≤ stringMaxCodeUnits) (utf16 : Bool) : Prepared b extra utf16 (b.grow extra utf16) := by
  rw [grow, if_neg (not_not.2 h.status), if_neg (by simp; omega)]
  by_cases hstay : (decide (b.length + extra ≤ b.capacity) && !(utf16 && !b.isUtf16) &&
      (b.allocated || decide (b.capacity = 0))) = true
  · rw [if_pos hstay]
    simp only [Bool.and_eq_true, Bool.or_eq_true, decide_eq_true_eq] at hstay
    obtain ⟨⟨hroom, hnarrow⟩, halloc⟩ := hstay
    refine ⟨h, rfl, ?_, halloc.resolve_right (by omega), hroom⟩
    cases hu : b.isUtf16 with
    | true => rfl
    | false => simpa [hu] using hnarrow.symm
  rw [if_neg hstay]
  obtain ⟨capacity, hcap, hreq, hlim, hcpos⟩ : ∃ capacity, (if b.length + extra > b.capacity
      then checkedSizeGrowth b.capacity (b.length + extra) textBufferInitialCapacity stringMaxCodeUnits
      else some b.capacity) = some capacity ∧ b.length + extra ≤ capacity ∧ capacity ≤ stringMaxCodeUnits ∧
        0 < capacity := by
    split_ifs with hgt
    · exact checkedSizeGrowth_spec hle h.capacity (by decide)
    · exact ⟨_, rfl, by omega, h.capacity, by omega⟩
  rw [hcap]
  dsimp only
  rw [if_neg (by omega)]
  have hunits := units_promote b (utf16 && !b.isUtf16)
  refine ⟨⟨rfl, hlim, fun _ => ?_, nofun⟩, hunits, isUtf16_promote b utf16, rfl, hreq⟩
  change (TextData.units _).length ≤ capacity
  rw [hunits]
  exact (Nat.le_add_right _ _).trans hreq

theorem prepare_spec (h : Ok b) (hpos : 0 < extra)
    (hle : b.length + extra ≤ stringMaxCodeUnits) (utf16 : Bool) : Prepared b extra utf16 (b.prepare extra utf16) := by
  rw [prepare]
  split_ifs with hfits
  · simp only [fits, Bool.and_eq_true, Bool.or_eq_true, decide_eq_true_eq, Bool.not_eq_true'] at hfits
    obtain ⟨⟨⟨-, halloc⟩, hroom⟩, henc⟩ := hfits
    refine ⟨h, rfl, ?_, halloc, by omega⟩
    rcases henc with henc | henc
    · rw [henc, Bool.or_false]
    · rw [henc, Bool.true_or]
  · exact grow_spec h hpos hle utf16

theorem toUInt16_toUInt8 {u : UInt16} (h : u.toNat ≤ 0xFF) : u.toUInt8.toUInt16 = u := by
  rw [← UInt16.toNat_inj, UInt8.toNat_toUInt16, UInt16.toNat_toUInt8, Nat.mod_eq_of_lt (by omega)]

theorem write_units {data : TextData} (h : data.isUtf16 = true ∨ ∀ u ∈ new, u.toNat ≤ 0xFF) :
    (data.write new).units = data.units ++ new ∧ (data.write new).isUtf16 = data.isUtf16 := by
  cases data with
  | utf16 units => exact ⟨rfl, rfl⟩
  | latin1 units =>
    refine ⟨?_, rfl⟩
    have hnew : (new.map UInt16.toUInt8).map UInt8.toUInt16 = new := by
      rw [map_map]
      exact (map_congr_left fun u hu => toUInt16_toUInt8 (h.resolve_left Bool.false_ne_true u hu)).trans (map_id new)
    rw [TextData.write, TextData.units, TextData.units, map_append, hnew]

theorem writeLatin1_units (data : TextData) (new : List UInt8) :
    (data.writeLatin1 new).units = data.units ++ new.map UInt8.toUInt16 ∧
      (data.writeLatin1 new).isUtf16 = data.isUtf16 := by
  cases data with
  | utf16 units => exact ⟨rfl, rfl⟩
  | latin1 units => exact ⟨map_append, rfl⟩

structure Appended (b : MalTextBuffer) (new : List UInt16) (wide : Bool) (b' : MalTextBuffer) : Prop where
  ok : Ok b'
  units : b'.units = b.units ++ new
  isUtf16 : b'.isUtf16 = (b.isUtf16 || wide)

theorem Prepared.write {utf16 : Bool} {data : TextData}
    (h : Prepared b new.length utf16 b') (hunits : data.units = b'.data.units ++ new)
    (henc : data.isUtf16 = b'.data.isUtf16) : Appended b new utf16 { b' with data := data } := by
  have heq : ({ b' with data := data } : MalTextBuffer).units = b.units ++ new := hunits.trans (congrArg (· ++ new) h.units)
  refine ⟨⟨h.ok.status, h.ok.capacity, fun _ => ?_, fun hf => absurd (h.allocated.symm.trans hf) (by simp)⟩, heq,
    henc.trans h.isUtf16⟩
  rw [length, heq, length_append]
  exact h.room

section

variable (h : Ok b)
include h

theorem prepared_of_fits (hfits : b.fits extra = true) : Prepared b extra false b := by
  simp only [fits, Bool.and_eq_true, decide_eq_true_eq] at hfits
  have := h.room hfits.1.2
  exact ⟨h, rfl, (Bool.or_false _).symm, hfits.1.2, by omega⟩

omit h in
theorem Appended.wide {wide : Bool} (h : Appended b new wide b') {wide' : Bool}
    (heq : (b.isUtf16 || wide) = (b.isUtf16 || wide')) : Appended b new wide' b' := ⟨h.ok, h.units, h.isUtf16.trans heq⟩

theorem push_spec (unit : UInt16) (hle : b.length + 1 ≤ stringMaxCodeUnits) :
    Appended b [unit] (unit.toNat > 0xFF) (b.push unit) := by
  rw [push]
  split_ifs with hfits
  · simp only [Bool.and_eq_true, Bool.or_eq_true, decide_eq_true_eq] at hfits
    have hnarrow : b.data.isUtf16 = true ∨ ∀ u ∈ [unit], u.toNat ≤ 0xFF := hfits.2.imp id fun hu => by simpa using hu
    obtain ⟨h1, h2⟩ := write_units hnarrow
    refine ((prepared_of_fits h hfits.1).write h1 h2).wide ?_
    rcases hfits.2 with hu | hu
    · rw [hu, Bool.true_or, Bool.true_or]
    · rw [decide_eq_false (by omega)]
  have hp := prepare_spec h Nat.one_pos hle (decide (unit.toNat > 0xFF))
  rw [if_pos hp.ok.status]
  have hnarrow : (b.prepare 1 (decide (unit.toNat > 0xFF))).data.isUtf16 = true ∨ ∀ u ∈ [unit], u.toNat ≤ 0xFF := by
    by_cases hu : unit.toNat > 0xFF
    · refine .inl (hp.isUtf16.trans ?_)
      rw [decide_eq_true hu, Bool.or_true]
    · exact .inr (by simpa using hu)
  obtain ⟨h1, h2⟩ := write_units hnarrow
  exact hp.write h1 h2

theorem appendUnits_spec (units : List UInt16)
    (hle : b.length + units.length ≤ stringMaxCodeUnits) : Appended b units (!unitsFitLatin1 units) (b.appendUnits units) := by
  rw [appendUnits]
  by_cases hfits : (b.isUtf16 && b.fits units.length) = true
  · rw [if_pos hfits]
    rw [Bool.and_eq_true] at hfits
    obtain ⟨h1, h2⟩ := write_units (.inl hfits.1 : b.data.isUtf16 = true ∨ ∀ u ∈ units, u.toNat ≤ 0xFF)
    refine ((prepared_of_fits h hfits.2).write h1 h2).wide ?_
    rw [hfits.1, Bool.true_or, Bool.true_or]
  rw [if_neg hfits]
  by_cases hnil : units = []
  · subst hnil
    exact ⟨h, (append_nil _).symm, by simp [unitsFitLatin1]⟩
  have hpos := length_pos_iff.2 hnil
  rw [if_neg (by simp [hnil, h.status]), if_neg (by omega)]
  have hp := prepare_spec h hpos hle (b.isUtf16 || !unitsFitLatin1 units)
  rw [if_pos hp.ok.status]
  have hnarrow : (b.prepare units.length (b.isUtf16 || !unitsFitLatin1 units)).data.isUtf16 = true ∨
      ∀ u ∈ units, u.toNat ≤ 0xFF := by
    cases hfit : unitsFitLatin1 units with
    | true => exact .inr ((unitsFitLatin1_iff units).1 hfit)
    | false =>
      refine .inl ?_
      rw [hfit] at hp
      exact hp.isUtf16.trans (by simp)
  obtain ⟨h1, h2⟩ := write_units hnarrow
  refine (hp.write h1 h2).wide ?_
  rw [← Bool.or_assoc, Bool.or_self]

theorem appendLatin1_spec (units : List UInt8) (hle : b.length + units.length ≤ stringMaxCodeUnits) :
    Appended b (units.map UInt8.toUInt16) false (b.appendLatin1 units) := by
  obtain ⟨h1, h2⟩ := writeLatin1_units b.data units
  rw [appendLatin1]
  by_cases hfits : (!b.isUtf16 && b.fits units.length) = true
  · rw [if_pos hfits]
    rw [Bool.and_eq_true] at hfits
    refine Prepared.write ?_ h1 h2
    rw [length_map]
    exact prepared_of_fits h hfits.2
  rw [if_neg hfits]
  by_cases hnil : units = []
  · subst hnil
    exact ⟨h, (append_nil _).symm, (Bool.or_false _).symm⟩
  have hpos := length_pos_iff.2 hnil
  rw [if_neg (by simp [hnil])]
  have hp := prepare_spec h hpos hle false
  rw [if_pos hp.ok.status]
  obtain ⟨h1, h2⟩ := writeLatin1_units (b.prepare units.length false).data units
  refine Prepared.write ?_ h1 h2
  rwa [length_map]

/-! ## Past the string limit -/

theorem Ok.length_le : b.length ≤ stringMaxCodeUnits := by
  cases ha : b.allocated with
  | true => exact (h.room ha).trans h.capacity
  | false => exact (h.unallocated ha).le.trans (Nat.zero_le _)

theorem not_fits_of_overflow (hgt : stringMaxCodeUnits < b.length + extra) : b.fits extra = false := by
  have hlen := h.length_le
  have hcap := h.capacity
  have hno : ¬extra ≤ b.capacity - b.length := by omega
  rw [fits, decide_eq_false hno, Bool.and_false]

theorem prepare_overflow (hgt : stringMaxCodeUnits < b.length + extra)
    (utf16 : Bool) : (b.prepare extra utf16).status = .lengthOverflow := by
  rw [prepare, not_fits_of_overflow h hgt, if_neg (by simp), grow, if_neg (not_not.2 h.status), if_pos]
  rw [Bool.or_eq_true, decide_eq_true_eq, decide_eq_true_eq]
  omega

theorem push_overflow (unit : UInt16) (hgt : stringMaxCodeUnits < b.length + 1) :
    (b.push unit).status = .lengthOverflow := by
  have hover := prepare_overflow h hgt (decide (unit.toNat > 0xFF))
  rw [push, not_fits_of_overflow h hgt, if_neg (by simp)]
  rw [if_neg (by rw [hover]; decide), hover]

theorem appendUnits_overflow (units : List UInt16)
    (hgt : stringMaxCodeUnits < b.length + units.length) : (b.appendUnits units).status = .lengthOverflow := by
  have hlen := h.length_le
  have hpos : units.length ≠ 0 := by omega
  rw [appendUnits, not_fits_of_overflow h hgt, if_neg (by simp), if_neg (by simpa [h.status] using hpos), if_pos (by omega)]

theorem appendLatin1_overflow (units : List UInt8)
    (hgt : stringMaxCodeUnits < b.length + units.length) : (b.appendLatin1 units).status = .lengthOverflow := by
  have hlen := h.length_le
  have hover := prepare_overflow h hgt false
  rw [appendLatin1, not_fits_of_overflow h hgt, if_neg (by simp), if_neg (by omega)]
  rw [if_neg (by rw [hover]; decide), hover]

end

end MalTextBuffer

end Maligator.Text
