/-
Flattening and bridging to UTF-16.

A reader that needs one contiguous UTF-16 buffer widens a Latin-1 leaf in place and turns a rope into an owned leaf; a slice
widens the leaf it looks into. A reader content with either width flattens a rope into Latin-1 when its bit allows that. A
child used twice in a row is walked once and its finished range copied. `none` is abort().

`flattenLoop_eq`: the walk writes the units of the parts in order.
`flatten_spec`, `codeUnits_spec`, `flatSegmentResolved_spec`: the buffer handed out holds the string's units, and no value's
units change.
-/
import Maligator.HeapString.Append

namespace Maligator.HeapString

open Text List

/-! ## Ropes -/

/-- MalStringFlattenTask: a string to walk, or a finished range to duplicate -/
inductive FlattenTask where
  | part (string : ℕ)
  | copy (sourceOffset : ℕ)
  deriving DecidableEq, Repr

/-- the loop of mal_string_flatten_cons_into; what was written so far ends at `offset` -/
def flattenLoop {α : Type} (h : StringHeap) (leaf : ℕ → List α) (limit : ℕ) : ℕ → List FlattenTask → List α → Option (List α)
  | _, [], written => some written
  | 0, _ :: _, _ => none
  | fuel + 1, .copy source :: tasks, written =>
    if source > written.length || written.length + (written.length - source) > limit then none
    else flattenLoop h leaf limit fuel tasks (written ++ written.drop source)
  | fuel + 1, .part a :: tasks, written =>
    match (h.get a).storage with
    | .cons _ left right =>
      if left = right then flattenLoop h leaf limit fuel (.part left :: .copy written.length :: tasks) written
      else flattenLoop h leaf limit fuel (.part left :: .part right :: tasks) written
    | _ =>
      if written.length + h.length a > limit then none
      else flattenLoop h leaf limit fuel tasks (written ++ leaf a)

section

variable (h : StringHeap) (a : ℕ)

/-- a leaf copied as bytes: it may have been widened since an ancestor recorded its Latin-1 bit -/
def leafBytes : List UInt8 := narrowSegment ((tryGetSegment h a 0 (h.length a)).getD (.latin1 []))

def leafUnits : List UInt16 := copyRangeTo h a 0 (h.length a)

/-- the buffer that mal_string_flatten_cons_into fills -/
def flattenPayload (latin1 : Bool) : Option Segment :=
  if latin1 then (flattenLoop h (leafBytes h) (h.length a) (2 * h.length a) [.part a] []).map .latin1
  else (flattenLoop h (leafUnits h) (h.length a) (2 * h.length a) [.part a] []).map .utf16

def flattenConsInto (latin1 : Bool) : Option StringHeap :=
  if !h.isCons a || latin1 && !(h.get a).latin1 then none
  else
    match flattenPayload h a latin1 with
    | some payload =>
      if payload.units.length ≠ h.length a then none
      else some (h.set a { h.get a with storage := .flat .owned payload })
    | none => none

/-! ## Bridging -/

/-- the leaf case of mal_string_flatten; a widened append buffer keeps its prefixes but no spare capacity -/
def widen (payload : Segment) : StringHeap × List UInt16 :=
  match payload with
  | .utf16 units => (h, units)
  | .latin1 _ =>
    let inlined := (h.get a).storage matches .flat .inline _ && h.length a ≤ inlineCodeUnits
    (h.set a { h.get a with storage := .flat (if inlined then .inline else .owned) (.utf16 payload.units) }, payload.units)

/-- what mal_string_code_units returns without flattening -/
def readyUnits : Option (List UInt16) :=
  if h.length a = 0 then some []
  else
    match h.leaf? a with
    | some (.utf16 units) => some units
    | _ => none

/-- mal_string_flatten: the units from the returned pointer to the end of its buffer -/
def flattenFrom (h : StringHeap) : ℕ → ℕ → Option (StringHeap × List UInt16)
  | 0, _ => none
  | fuel + 1, a =>
    match (h.get a).storage with
    | .dependent _ parent offset =>
      match readyUnits h parent with
      | some units => some (h, units.drop offset)
      | none => (flattenFrom h fuel parent).map fun r => (r.1, r.2.drop offset)
    | .cons .. =>
      (flattenConsInto h a false).map fun h' => (h', match h'.leaf? a with | some payload => payload.units | none => [])
    | .flat _ payload => some (widen h a payload)
    | .builder payload _ => some (widen h a payload)

def flatten : Option (StringHeap × List UInt16) := flattenFrom h (a + 1) a

def codeUnits : Option (StringHeap × List UInt16) :=
  match readyUnits h a with
  | some units => some (h, units)
  | none => flatten h a

def flatSegmentResolved : Option (StringHeap × Segment) :=
  match tryGetSegment h a 0 (h.length a) with
  | some segment => some (h, segment)
  | none =>
    match flattenConsInto h a (h.get a).latin1 with
    | some h' => (tryGetSegment h' a 0 (h'.length a)).map fun segment => (h', segment)
    | none => none

/-- mal_string_range_segment: a partial range over several leaves goes to scratch memory -/
def rangeSegment (start length : ℕ) : Option (StringHeap × Segment) :=
  if start = 0 ∧ length = h.length a then flatSegmentResolved h a
  else
    match tryGetSegment h a start length with
    | some segment => some (h, segment)
    | none => some (h, .utf16 (copyRangeTo h a start length))

/-- mal_string_range_utf16; a Latin-1 segment is widened into scratch memory -/
def rangeUtf16 (start length : ℕ) : Option (StringHeap × List UInt16) :=
  if start = 0 ∧ length = h.length a then codeUnits h a
  else (rangeSegment h a start length).map fun r => (r.1, r.2.units)

end

/-! ## The walk writes the units -/

section Walk

variable {α : Type} {h : StringHeap}

def taskResult (contents : ℕ → List α) : List FlattenTask → List α → List α
  | [], written => written
  | .copy source :: tasks, written => taskResult contents tasks (written ++ written.drop source)
  | .part a :: tasks, written => taskResult contents tasks (written ++ contents a)

theorem length_le_taskResult (contents : ℕ → List α) : ∀ (tasks : List FlattenTask) (written : List α),
    written.length ≤ (taskResult contents tasks written).length
  | [], _ => le_rfl
  | .copy source :: tasks, written => by
    have := length_le_taskResult contents tasks (written ++ written.drop source)
    rw [length_append] at this
    rw [taskResult]
    omega
  | .part a :: tasks, written => by
    have := length_le_taskResult contents tasks (written ++ contents a)
    rw [length_append] at this
    rw [taskResult]
    omega

def taskRounds (h : StringHeap) (tasks : List FlattenTask) : ℕ :=
  (tasks.map fun
    | .part a => 2 * h.length a - 1
    | .copy _ => 1).sum

def TasksOk (h : StringHeap) (length : ℕ) (tasks : List FlattenTask) : Prop :=
  ∀ task ∈ tasks, match task with
    | .part a => a < h.size ∧ 0 < h.length a
    | .copy source => source ≤ length

theorem TasksOk.mono {length length' : ℕ} {tasks : List FlattenTask} (ht : TasksOk h length tasks) (hle : length ≤ length') :
    TasksOk h length' tasks := by
  intro task hmem
  have := ht task hmem
  cases task with
  | part a => exact this
  | copy source => exact le_trans this hle

theorem flattenLoop_eq (hok : HeapOk h) {leaf contents : ℕ → List α} {limit : ℕ}
    (hlen : ∀ a, a < h.size → (contents a).length = h.length a)
    (hleaf : ∀ a, a < h.size → 0 < h.length a → h.isCons a = false → leaf a = contents a)
    (hcons : ∀ a latin1 left right, a < h.size → (h.get a).storage = .cons latin1 left right →
      contents a = contents left ++ contents right) :
    ∀ (fuel : ℕ) (tasks : List FlattenTask) (written : List α), TasksOk h written.length tasks → taskRounds h tasks ≤ fuel →
      (taskResult contents tasks written).length ≤ limit →
      flattenLoop h leaf limit fuel tasks written = some (taskResult contents tasks written) := by
  intro fuel
  induction fuel with
  | zero =>
    rintro (_ | ⟨task, tasks⟩) written htasks hr hlimit
    · rfl
    · have htask := htasks task (mem_cons_self ..)
      cases task with
      | part a => simp only [taskRounds, map_cons, sum_cons] at hr htask; omega
      | copy source => simp only [taskRounds, map_cons, sum_cons] at hr; omega
  | succ fuel ih =>
    rintro (_ | ⟨task, tasks⟩) written htasks hr hlimit
    · rfl
    obtain ⟨htask, hrest⟩ := forall_mem_cons.1 htasks
    simp only [taskRounds, map_cons, sum_cons] at hr
    -- writing more keeps the remaining copies in range
    have hgo : ∀ more : List α, taskResult contents (task :: tasks) written = taskResult contents tasks (written ++ more) →
        written.length + more.length ≤ limit ∧
          flattenLoop h leaf limit fuel tasks (written ++ more) = some (taskResult contents tasks (written ++ more)) := by
      intro more hmore
      rw [hmore] at hlimit
      have hle := length_le_taskResult contents tasks (written ++ more)
      rw [length_append] at hle
      refine ⟨by omega, ih tasks (written ++ more) (TasksOk.mono hrest (by rw [length_append]; omega)) ?_ hlimit⟩
      simp only [taskRounds]
      cases task with
      | part a => dsimp only at hr htask; omega
      | copy source => dsimp only at hr; omega
    cases task with
    | copy source =>
      obtain ⟨hfits, hrun⟩ := hgo (written.drop source) rfl
      rw [length_drop] at hfits
      rw [flattenLoop, if_neg (by simp; omega), hrun]
      rfl
    | part a =>
      obtain ⟨ha, hpos⟩ := htask
      cases hc : h.isCons a with
      | false =>
        obtain ⟨hfits, hrun⟩ := hgo (contents a) rfl
        rw [hlen a ha] at hfits
        have hstep : flattenLoop h leaf limit (fuel + 1) (.part a :: tasks) written =
            if written.length + h.length a > limit then none else flattenLoop h leaf limit fuel tasks (written ++ leaf a) := by
          unfold StringHeap.isCons at hc
          rw [flattenLoop]
          cases hs : (h.get a).storage with
          | cons latin1 left right => rw [hs] at hc; cases hc
          | _ => rfl
        rw [hstep, if_neg (by omega), hleaf a ha hpos hc, hrun]
        rfl
      | true =>
        obtain ⟨latin1, left, right, hs⟩ := storage_of_isCons hc
        obtain ⟨h1, h2, h3, h4, h5⟩ := cons_parts hok ha hs
        rw [flattenLoop, hs]
        dsimp only at hr ⊢
        split_ifs with hshared
        · subst hshared
          have hsame : taskResult contents (.part a :: tasks) written =
              taskResult contents (.part left :: .copy written.length :: tasks) written := by
            rw [taskResult, taskResult, taskResult, drop_left, hcons a latin1 left left ha hs, append_assoc]
          rw [hsame] at hlimit ⊢
          refine ih _ _ ?_ ?_ hlimit
          · exact forall_mem_cons.2 ⟨⟨h1, h3⟩, forall_mem_cons.2 ⟨le_rfl, hrest⟩⟩
          · simp only [taskRounds, map_cons, sum_cons]
            omega
        · have hsame : taskResult contents (.part a :: tasks) written =
              taskResult contents (.part left :: .part right :: tasks) written := by
            rw [taskResult, taskResult, taskResult, hcons a latin1 left right ha hs, append_assoc]
          rw [hsame] at hlimit ⊢
          refine ih _ _ ?_ ?_ hlimit
          · exact forall_mem_cons.2 ⟨⟨h1, h3⟩, forall_mem_cons.2 ⟨⟨h2, h4⟩, hrest⟩⟩
          · simp only [taskRounds, map_cons, sum_cons]
            omega

end Walk

section Flatten

variable {h : StringHeap}

variable {a : ℕ}

theorem flattenLoop_whole {α : Type} (hok : HeapOk h) (ha : a < h.size) (hpos : 0 < h.length a)
    (leaf contents : ℕ → List α) (hlen : ∀ b, b < h.size → (contents b).length = h.length b)
    (hleaf : ∀ b, b < h.size → 0 < h.length b → h.isCons b = false → leaf b = contents b)
    (hcons : ∀ b latin1 left right, b < h.size → (h.get b).storage = .cons latin1 left right →
      contents b = contents left ++ contents right) :
    flattenLoop h leaf (h.length a) (2 * h.length a) [.part a] [] = some (contents a) := by
  refine (flattenLoop_eq hok hlen hleaf hcons (2 * h.length a) [.part a] [] ?_ ?_ ?_)
  · exact List.forall_mem_singleton.2 ⟨ha, hpos⟩
  · simp only [taskRounds, map_cons, map_nil, sum_cons, sum_nil]
    omega
  · exact (hlen a ha).le

theorem narrowSegment_eq (segment : Segment) : narrowSegment segment = segment.units.map UInt16.toUInt8 := by
  cases segment with
  | utf16 units => rfl
  | latin1 bytes =>
    have hbyte : ∀ b : UInt8, b.toUInt16.toUInt8 = b := fun b => by
      rw [← UInt8.toNat_inj, UInt16.toNat_toUInt8, UInt8.toNat_toUInt16, Nat.mod_eq_of_lt b.toNat_lt]
    rw [Segment.units, map_map]
    exact (map_id'' hbyte bytes).symm

section

variable (hok : HeapOk h)
include hok

/-- **The flattened buffer holds the rope's units**, in either encoding -/
theorem flattenPayload_units (ha : a < h.size) (hpos : 0 < h.length a) {latin1 : Bool}
    (hlatin1 : latin1 = true → (h.get a).latin1 = true) :
    ∃ payload, flattenPayload h a latin1 = some payload ∧ payload.units = units h a := by
  have hlen := fun b hb => length_units hok b hb
  rw [flattenPayload]
  cases latin1 with
  | false =>
    have hrun := flattenLoop_whole hok ha hpos (leafUnits h) (units h) hlen
      (fun b hb _ _ => by rw [leafUnits, copyRangeTo_eq hok hb (by omega), slice_all (hlen b hb)])
      (fun b latin1 left right hb hs => units_cons hok hb hs)
    rw [hrun]
    exact ⟨_, rfl, rfl⟩
  | true =>
    have hrun := flattenLoop_whole hok ha hpos (leafBytes h) (fun b => (units h b).map UInt16.toUInt8)
      (fun b hb => by rw [length_map, hlen b hb])
      (fun b hb _ hc => by
        obtain ⟨segment, hseg⟩ := tryGetSegment_of_not_cons hok hb hc 0 (h.length b)
        rw [leafBytes, hseg, Option.getD_some, narrowSegment_eq, tryGetSegment_units hok hb (by omega) hseg,
          slice_all (hlen b hb)])
      (fun b latin1 left right hb hs => by rw [units_cons hok hb hs, map_append])
    rw [hrun]
    exact ⟨_, rfl, map_narrow ((hok.cell a ha).narrow (hlatin1 rfl))⟩

theorem becomes_flat (ha : a < h.size) {payload : Segment} (kind : FlatStorage) (hu : payload.units = units h a)
    : Becomes h a { h.get a with storage := .flat kind payload } payload := by
  have hlen := length_units hok a ha
  refine ⟨.flat kind, ?_, ?_, hu ▸ prefix_rfl, fun _ => hu, ?_, nofun⟩
  · rw [hu, hlen]
    rfl
  · rw [hu, hlen]
    exact (hok.cell a ha).fits
  · rw [hu]
    exact (hok.cell a ha).hash

theorem flattenConsInto_spec (ha : a < h.size) (hc : h.isCons a = true) (latin1 : Bool)
    (hlatin1 : latin1 = true → (h.get a).latin1 = true) :
    ∃ h' payload, flattenConsInto h a latin1 = some h' ∧ Keeps h h' ∧ h'.leaf? a = some payload ∧ payload.units = units h a := by
  obtain ⟨payload, hpay, hu⟩ := flattenPayload_units hok ha (length_pos_of_isCons hok ha hc) hlatin1
  have hb := becomes_flat hok ha .owned hu
  rw [flattenConsInto, if_neg (by cases latin1 <;> simp_all), hpay]
  dsimp only
  rw [if_neg (by rw [hu, length_units hok a ha]; simp)]
  exact ⟨_, payload, rfl, set_leaf hok ha hb, hb.leaf ha, hu⟩

theorem widen_spec {payload : Segment} (ha : a < h.size) (hleaf : h.leaf? a = some payload) :
    Keeps h (widen h a payload).1 ∧ (widen h a payload).2 = units h a := by
  have hu := units_of_leaf hleaf
  cases payload with
  | utf16 units => exact ⟨Keeps.refl hok, hu.symm⟩
  | latin1 bytes =>
    rw [widen]
    refine ⟨?_, hu.symm⟩
    split_ifs
    · exact set_leaf hok ha (becomes_flat hok ha .inline (show (Segment.utf16 _).units = _ from hu.symm))
    · exact set_leaf hok ha (becomes_flat hok ha .owned (show (Segment.utf16 _).units = _ from hu.symm))

theorem readyUnits_eq {ready : List UInt16} (ha : a < h.size) (hr : readyUnits h a = some ready) : ready = units h a := by
  rw [readyUnits] at hr
  split_ifs at hr with hzero
  · cases hr
    exact (length_eq_zero_iff.1 ((length_units hok a ha).trans hzero)).symm
  split at hr
  · rename_i hleaf
    cases hr
    exact (units_of_leaf hleaf).symm
  · cases hr

theorem flattenFrom_leaf (fuel : ℕ) {payload : Segment} (ha : a < h.size) (hleaf : h.leaf? a = some payload) :
    ∃ r, flattenFrom h (fuel + 1) a = some r ∧ Keeps h r.1 ∧ r.2 = units h a := by
  have hw := widen_spec hok ha hleaf
  unfold StringHeap.leaf? at hleaf
  rw [flattenFrom]
  cases hs : (h.get a).storage with
  | flat kind p | builder p capacity => rw [hs] at hleaf; cases hleaf; exact ⟨_, rfl, hw⟩
  | dependent latin1 parent offset | cons latin1 left right => rw [hs] at hleaf; cases hleaf

theorem flatten_spec (ha : a < h.size) : ∃ r, flatten h a = some r ∧ Keeps h r.1 ∧ r.2.take (h.length a) = units h a := by
  have hlen := length_units hok a ha
  have hwhole : ∀ {u : List UInt16}, u = units h a → u.take (h.length a) = units h a := fun hu => by
    rw [hu, take_of_length_le hlen.le]
  have hleafcase : ∀ payload, h.leaf? a = some payload →
      ∃ r, flatten h a = some r ∧ Keeps h r.1 ∧ r.2.take (h.length a) = units h a := by
    intro payload hleaf
    obtain ⟨r, hres, hk, hu⟩ := flattenFrom_leaf hok a ha hleaf
    exact ⟨r, hres, hk, hwhole hu⟩
  cases hs : (h.get a).storage with
  | flat kind payload | builder payload capacity => exact hleafcase payload (by rw [StringHeap.leaf?, hs])
  | dependent latin1 parent offset =>
    obtain ⟨hp, payload, hleaf, hle⟩ := hok.dependent ha hs
    have hu := units_dependent hok ha hs
    rw [flatten, flattenFrom, hs]
    dsimp only
    cases hready : readyUnits h parent with
    | some ready =>
      refine ⟨_, rfl, Keeps.refl hok, ?_⟩
      rw [readyUnits_eq hok (by omega) hready, hu]
    | none =>
      obtain ⟨fuel, rfl⟩ : ∃ fuel, a = fuel + 1 := ⟨a - 1, by omega⟩
      obtain ⟨r, hres, hk, hr⟩ := flattenFrom_leaf hok fuel (by omega) hleaf
      rw [hres]
      refine ⟨_, rfl, hk, ?_⟩
      change (r.2.drop offset).take _ = _
      rw [hr, hu]
  | cons latin1 left right =>
    obtain ⟨h', payload, hflat, hk, hleaf, hu⟩ := flattenConsInto_spec hok ha (by rw [StringHeap.isCons, hs]) false
      (by simp)
    rw [flatten, flattenFrom, hs]
    rw [hflat]
    refine ⟨_, rfl, hk, ?_⟩
    dsimp only
    rw [hleaf]
    exact hwhole hu

theorem codeUnits_spec (ha : a < h.size) :
    ∃ r, codeUnits h a = some r ∧ Keeps h r.1 ∧ r.2.take (h.length a) = units h a := by
  rw [codeUnits]
  cases hready : readyUnits h a with
  | some ready =>
    refine ⟨_, rfl, Keeps.refl hok, ?_⟩
    rw [readyUnits_eq hok ha hready, take_of_length_le (length_units hok a ha).le]
  | none => exact flatten_spec hok ha

theorem flatSegmentResolved_spec (ha : IsValue h a) :
    ∃ r, flatSegmentResolved h a = some r ∧ Keeps h r.1 ∧ r.2.units = units h a := by
  rw [flatSegmentResolved]
  cases hseg : tryGetSegment h a 0 (h.length a) with
  | some segment =>
    refine ⟨_, rfl, Keeps.refl hok, ?_⟩
    rw [tryGetSegment_units hok ha.1 (by omega) hseg, slice_all (length_units hok a ha.1)]
  | none =>
    have hc : h.isCons a = true := by
      by_contra hno
      obtain ⟨segment, hsome⟩ := tryGetSegment_of_not_cons hok ha.1 (by simpa using hno) 0 (h.length a)
      rw [hseg] at hsome
      cases hsome
    obtain ⟨h', payload, hflat, hk, hleaf, hu⟩ := flattenConsInto_spec hok ha.1 hc (h.get a).latin1 fun hl => hl
    have ha' := (hk.value a ha).1
    obtain ⟨segment, hsome⟩ := tryGetSegment_of_not_cons hk.ok ha' (isCons_of_leaf hleaf) 0 (h'.length a)
    rw [hflat]
    dsimp only
    rw [hsome]
    refine ⟨_, rfl, hk, ?_⟩
    rw [tryGetSegment_units hk.ok ha' (by omega) hsome, slice_all (length_units hk.ok a ha'), hk.units a ha]

theorem rangeSegment_spec {start length : ℕ} (ha : IsValue h a) (hle : start + length ≤ h.length a) :
    ∃ r, rangeSegment h a start length = some r ∧ Keeps h r.1 ∧ r.2.units = slice (units h a) start length := by
  rw [rangeSegment]
  split_ifs with hwhole
  · obtain ⟨rfl, rfl⟩ := hwhole
    rw [slice_all (length_units hok a ha.1)]
    exact flatSegmentResolved_spec hok ha
  cases hseg : tryGetSegment h a start length with
  | some segment => exact ⟨_, rfl, Keeps.refl hok, tryGetSegment_units hok ha.1 hle hseg⟩
  | none => exact ⟨_, rfl, Keeps.refl hok, copyRangeTo_eq hok ha.1 hle⟩

theorem rangeUtf16_spec {start length : ℕ} (ha : IsValue h a) (hle : start + length ≤ h.length a) :
    ∃ r, rangeUtf16 h a start length = some r ∧ Keeps h r.1 ∧ r.2.take length = slice (units h a) start length := by
  rw [rangeUtf16]
  split_ifs with hwhole
  · obtain ⟨rfl, rfl⟩ := hwhole
    rw [slice_all (length_units hok a ha.1)]
    exact codeUnits_spec hok ha.1
  obtain ⟨r, hres, hk, hu⟩ := rangeSegment_spec hok ha hle
  rw [hres]
  refine ⟨_, rfl, hk, ?_⟩
  dsimp only
  rw [hu, take_of_length_le]
  rw [length_slice (by rw [length_units hok a ha.1]; exact hle)]

end

end Flatten

end Maligator.HeapString
