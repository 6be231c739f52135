/-
The debug tables of `mal_vm_splice_runtime_image` (`vm.c`), and the frames that a position stands for in a stack trace.

A splice appends the files, the source positions and the functions of an image to those of the VM and rebases what they
refer to. `Embeds` says that an image's tables are in the VM's under two bases, each function with its own file; a splice
makes it so for its image (`splice_embeds`) and leaves it so for the images before (`Embeds.splice`). Under it a position of
a spliced function resolves to the frames that the image alone gives (`logicalFrames_embeds`).

Both need `Spliceable`. The run-length tables are rebased without the test for -1 that the other references have, so an
unknown position becomes the last one of the images before; and the file index of a function is rebased only along with a
table, so a function of a stripped image, which has index 0 and no table, gets the first file of another image
(`splice_misplaces`).
-/
import Maligator.Loader.Compact

namespace Maligator.Loader

open List

/-! ## Tables -/

/-- MalSourcePos -/
structure SourcePos where
  line : ℤ
  column : ℤ
  inlinedFunctionIndex : ℤ
  callerPosId : ℤ
  deriving DecidableEq

/-- the debug fields of a MalFunction -/
structure DebugFunction where
  fileIndex : ℤ
  positions : List LineEntry

/-- the debug tables of a MalRuntimeImage -/
structure DebugImage where
  files : List String
  sourcePositions : List SourcePos
  functions : List DebugFunction

/-- a reference that may be -1 -/
def rebaseId (base : ℕ) (id : ℤ) : ℤ := if 0 ≤ id then id + base else id

def SourcePos.rebase (fnBase positionBase : ℕ) (position : SourcePos) : SourcePos :=
  { position with
    inlinedFunctionIndex := rebaseId fnBase position.inlinedFunctionIndex
    callerPosId := rebaseId positionBase position.callerPosId }

/-- the table of a function is rebased without a test for -1 -/
def LineEntry.rebase (positionBase : ℕ) (entry : LineEntry) : LineEntry :=
  { entry with posId := entry.posId + positionBase }

def DebugFunction.rebase (fileBase positionBase : ℕ) (fn : DebugFunction) : DebugFunction :=
  if 0 < fn.positions.length then
    ⟨fn.fileIndex + fileBase, fn.positions.map (LineEntry.rebase positionBase)⟩
  else fn

/-- mal_vm_splice_runtime_image, on the debug tables -/
def spliceRuntimeImage (live loaded : DebugImage) : DebugImage where
  files := live.files ++ loaded.files
  sourcePositions :=
    live.sourcePositions ++ loaded.sourcePositions.map (SourcePos.rebase live.functions.length live.sourcePositions.length)
  functions :=
    live.functions ++ loaded.functions.map (DebugFunction.rebase live.files.length live.sourcePositions.length)

/-- a VM that the images were spliced into, one after the other; the first is the program's own -/
def spliceAll (images : List DebugImage) : DebugImage := images.foldl spliceRuntimeImage ⟨[], [], []⟩

/-! ## Frames -/

/-- a line of a stack trace: its function, that function's file, and the position in it -/
structure LogicalFrame where
  functionIndex : ℤ
  file : Option String
  position : Option (ℤ × ℤ)
  deriving DecidableEq

def DebugImage.position? (image : DebugImage) (id : ℤ) : Option SourcePos :=
  if 0 ≤ id then image.sourcePositions[id.toNat]? else none

def DebugImage.fileOf (image : DebugImage) (fn : DebugFunction) : Option String :=
  if 0 ≤ fn.fileIndex then image.files[fn.fileIndex.toNat]? else none

def DebugImage.file? (image : DebugImage) (functionIndex : ℤ) : Option String :=
  image.functions[functionIndex.toNat]?.bind image.fileOf

/-- the position, if it is of inlined code -/
def DebugImage.inlined? (image : DebugImage) (id : ℤ) : Option SourcePos :=
  (image.position? id).filter fun position =>
    0 ≤ position.inlinedFunctionIndex ∧ position.inlinedFunctionIndex < (image.functions.length : ℤ)

/-- the loop of mal_vm_format_stack_frames over the inline chain of a position -/
def logicalFrames (image : DebugImage) (functionIndex : ℤ) : ℕ → ℤ → List LogicalFrame
  | 0, _ => []
  | guard + 1, posId =>
    let function := (image.inlined? posId).elim functionIndex SourcePos.inlinedFunctionIndex
    ⟨function, image.file? function, (image.position? posId).map fun position => (position.line, position.column + 1)⟩ ::
      (image.inlined? posId).elim [] fun position => logicalFrames image functionIndex guard position.callerPosId

/-- the frames of an instruction of a function -/
def framesAt (image : DebugImage) (functionIndex ip : ℕ) : Option (List LogicalFrame) :=
  image.functions[functionIndex]?.map fun fn => logicalFrames image functionIndex 100000 (positionFor fn.positions ip)

/-- the same frame after fnBase functions -/
def LogicalFrame.shift (fnBase : ℕ) (frame : LogicalFrame) : LogicalFrame :=
  { frame with functionIndex := frame.functionIndex + fnBase }

/-! ## An image among others -/

/-- references lie in their tables, or are negative -/
structure WellFormed (image : DebugImage) : Prop where
  inlined : ∀ position ∈ image.sourcePositions, position.inlinedFunctionIndex < image.functions.length
  caller : ∀ position ∈ image.sourcePositions, position.callerPosId < image.sourcePositions.length
  ids : ∀ fn ∈ image.functions, ∀ entry ∈ fn.positions, entry.posId < image.sourcePositions.length

/-- what a splice has to meet: no unknown position after other positions, no function after other files that has an index
but no table or a table but no index, and no files after a function whose index is beyond those there are -/
structure Spliceable (live image : DebugImage) : Prop where
  known : live.sourcePositions ≠ [] → ∀ fn ∈ image.functions, ∀ entry ∈ fn.positions, 0 ≤ entry.posId
  table : live.files ≠ [] → ∀ fn ∈ image.functions, fn.positions ≠ [] ↔ 0 ≤ fn.fileIndex
  placed : image.files ≠ [] → ∀ fn ∈ live.functions, fn.fileIndex < live.files.length

/-- every splice of a run meets the condition -/
def AllSpliceable : DebugImage → List DebugImage → Prop
  | _, [] => True
  | live, image :: images => Spliceable live image ∧ AllSpliceable (spliceRuntimeImage live image) images

variable {image live loaded : DebugImage} {fnBase positionBase : ℕ} {entries : List LineEntry} {n : ℕ}
  {position : SourcePos} {fn : DebugFunction} {posId f : ℤ}

def LineEntry.rebaseKnown (positionBase : ℕ) (entry : LineEntry) : LineEntry :=
  { entry with posId := rebaseId positionBase entry.posId }

/-- the image's tables lie in the VM's after fnBase functions and positionBase positions -/
structure Embeds (image live : DebugImage) (fnBase positionBase : ℕ) : Prop where
  position : ∀ i position, image.sourcePositions[i]? = some position →
    live.sourcePositions[positionBase + i]? = some (position.rebase fnBase positionBase)
  function : ∀ i fn, image.functions[i]? = some fn → ∃ spliced, live.functions[fnBase + i]? = some spliced ∧
    spliced.positions = fn.positions.map (LineEntry.rebaseKnown positionBase) ∧ live.fileOf spliced = image.fileOf fn

theorem Spliceable.positions (h : Spliceable live image) (hfn : fn ∈ image.functions) :
    (fn.rebase live.files.length live.sourcePositions.length).positions =
      fn.positions.map (LineEntry.rebaseKnown live.sourcePositions.length) := by
  have hentries : fn.positions.map (LineEntry.rebase live.sourcePositions.length) =
      fn.positions.map (LineEntry.rebaseKnown live.sourcePositions.length) := by
    refine map_congr_left fun entry hentry => ?_
    rw [LineEntry.rebase, LineEntry.rebaseKnown, rebaseId]
    split_ifs with h0
    · rfl
    · have hfirst : live.sourcePositions = [] := by_contra fun hne => h0 (h.known hne fn hfn entry hentry)
      simp [hfirst]
  rw [DebugFunction.rebase]
  split_ifs with htable
  · exact hentries
  · rw [length_eq_zero_iff.1 (Nat.eq_zero_of_not_pos htable)]
    rfl

theorem Spliceable.fileOf (h : Spliceable live image) (hfn : fn ∈ image.functions) :
    (spliceRuntimeImage live image).fileOf (fn.rebase live.files.length live.sourcePositions.length) = image.fileOf fn := by
  have hrebased : (fn.rebase live.files.length live.sourcePositions.length).fileIndex =
      rebaseId live.files.length fn.fileIndex := by
    rw [DebugFunction.rebase, rebaseId]
    by_cases hfirst : live.files = []
    · simp only [hfirst, length_nil, Nat.cast_zero, add_zero, ite_self]
      split_ifs <;> rfl
    · have htable := h.table hfirst fn hfn
      rw [← length_pos_iff] at htable
      split_ifs with h1 h2 h2
      · rfl
      · exact absurd (htable.1 h1) h2
      · exact absurd (htable.2 h2) h1
      · rfl
  rw [DebugImage.fileOf, DebugImage.fileOf, hrebased, rebaseId]
  split_ifs with h0 h1
  · have hindex : (fn.fileIndex + live.files.length).toNat = live.files.length + fn.fileIndex.toNat := by omega
    rw [spliceRuntimeImage, hindex, getElem?_append_right (Nat.le_add_right _ _), Nat.add_sub_cancel_left]
  · omega
  · rfl

theorem splice_embeds (h : Spliceable live image) :
    Embeds image (spliceRuntimeImage live image) live.functions.length live.sourcePositions.length := by
  refine ⟨fun i position hi => ?_, fun i fn hi => ⟨fn.rebase live.files.length live.sourcePositions.length, ?_, ?_, ?_⟩⟩
  · rw [spliceRuntimeImage, getElem?_append_right (Nat.le_add_right _ _), Nat.add_sub_cancel_left, getElem?_map, hi]
    rfl
  · rw [spliceRuntimeImage, getElem?_append_right (Nat.le_add_right _ _), Nat.add_sub_cancel_left, getElem?_map, hi]
    rfl
  · exact h.positions (mem_of_getElem? hi)
  · exact h.fileOf (mem_of_getElem? hi)

/-- a function of the VM keeps its file -/
theorem Spliceable.fileOf_live (h : Spliceable live loaded) (hfn : fn ∈ live.functions) :
    (spliceRuntimeImage live loaded).fileOf fn = live.fileOf fn := by
  rw [DebugImage.fileOf, DebugImage.fileOf, spliceRuntimeImage]
  split_ifs with h0
  · by_cases hfiles : loaded.files = []
    · rw [hfiles, append_nil]
    · have := h.placed hfiles fn hfn
      exact getElem?_append_left (by omega)
  · rfl

theorem Embeds.splice (h : Embeds image live fnBase positionBase) (hstep : Spliceable live loaded) :
    Embeds image (spliceRuntimeImage live loaded) fnBase positionBase := by
  have hleft : ∀ {α : Type} {l r : List α} {i : ℕ} {x : α}, l[i]? = some x → (l ++ r)[i]? = some x :=
    fun hi => by rw [getElem?_append_left (List.getElem?_eq_some_iff.1 hi).1, hi]
  refine ⟨fun i position hi => hleft (h.position i position hi), fun i fn hi => ?_⟩
  obtain ⟨spliced, hspliced, hpositions, hfile⟩ := h.function i fn hi
  exact ⟨spliced, hleft hspliced, hpositions, (hstep.fileOf_live (mem_of_getElem? hspliced)).trans hfile⟩

theorem Embeds.run (h : Embeds image live fnBase positionBase) {images : List DebugImage}
    (hrun : AllSpliceable live images) : Embeds image (images.foldl spliceRuntimeImage live) fnBase positionBase := by
  induction images generalizing live with
  | nil => exact h
  | cons loaded images ih => exact ih (h.splice hrun.1) hrun.2

theorem AllSpliceable.append {before after : List DebugImage} (h : AllSpliceable live (before ++ after)) :
    AllSpliceable (before.foldl spliceRuntimeImage live) after := by
  induction before generalizing live with
  | nil => exact h
  | cons image before ih => exact ih h.2

/-! ## Positions -/

theorem positionFor_rebaseKnown (entries : List LineEntry) (ip base : ℕ) :
    positionFor (entries.map (LineEntry.rebaseKnown base)) ip = rebaseId base (positionFor entries ip) := by
  have hsame : (fun entry : LineEntry => decide (entry.startIp ≤ ip)) ∘ LineEntry.rebaseKnown base =
      fun entry => decide (entry.startIp ≤ ip) := rfl
  rw [positionFor, positionFor, takeWhile_map, getLast?_map, hsame]
  cases (entries.takeWhile fun entry => decide (entry.startIp ≤ ip)).getLast? <;> rfl

theorem positionFor_lt (h : ∀ entry ∈ entries, entry.posId < n) (ip : ℕ) :
    positionFor entries ip < n := by
  rw [positionFor]
  cases hlast : (entries.takeWhile fun entry => decide (entry.startIp ≤ ip)).getLast? with
  | none => exact Int.lt_of_lt_of_le (by decide) (Int.natCast_nonneg n)
  | some entry => exact h entry ((takeWhile_sublist _).subset (mem_of_getLast? hlast))

theorem DebugImage.mem_of_position? (h : image.position? posId = some position) : position ∈ image.sourcePositions := by
  rw [DebugImage.position?] at h
  split_ifs at h
  exact mem_of_getElem? h

/-- what the chain of a position goes through -/
theorem DebugImage.inlined?_eq_some (h : image.inlined? posId = some position) : position ∈ image.sourcePositions ∧
    0 ≤ position.inlinedFunctionIndex ∧ position.inlinedFunctionIndex < image.functions.length := by
  obtain ⟨hposition, hin⟩ := Option.filter_eq_some_iff.1 h
  exact ⟨mem_of_position? hposition, by simpa using hin⟩

section

variable (h : Embeds image live fnBase positionBase)
include h

theorem Embeds.position? (hpos : posId < image.sourcePositions.length) :
    live.position? (rebaseId positionBase posId) = (image.position? posId).map (SourcePos.rebase fnBase positionBase) := by
  rw [DebugImage.position?, DebugImage.position?, rebaseId]
  split_ifs with h0 h1
  · have hindex : (posId + positionBase).toNat = positionBase + posId.toNat := by omega
    have hi : posId.toNat < image.sourcePositions.length := by omega
    rw [hindex, h.position _ _ (getElem?_eq_getElem hi), getElem?_eq_getElem hi]
    rfl
  · omega
  · rfl

theorem Embeds.function_lt (h0 : 0 ≤ f) (hf : f < image.functions.length) : f + fnBase < live.functions.length := by
  have hi : f.toNat < image.functions.length := by omega
  obtain ⟨_, hfn, -⟩ := h.function _ _ (getElem?_eq_getElem hi)
  have := (List.getElem?_eq_some_iff.1 hfn).1
  omega

theorem Embeds.file? (h0 : 0 ≤ f) (hf : f < image.functions.length) : live.file? (f + fnBase) = image.file? f := by
  have hi : f.toNat < image.functions.length := by omega
  obtain ⟨spliced, hspliced, -, hfile⟩ := h.function _ _ (getElem?_eq_getElem hi)
  have hindex : (f + fnBase).toNat = fnBase + f.toNat := by omega
  rw [DebugImage.file?, DebugImage.file?, hindex, hspliced, getElem?_eq_getElem hi]
  exact hfile

variable (hwf : WellFormed image)
include hwf

theorem Embeds.inlined? (hpos : posId < image.sourcePositions.length) :
    live.inlined? (rebaseId positionBase posId) = (image.inlined? posId).map (SourcePos.rebase fnBase positionBase) := by
  rw [DebugImage.inlined?, DebugImage.inlined?, h.position? hpos]
  cases hposition : image.position? posId with
  | none => rfl
  | some position =>
    have hlt := hwf.inlined position (DebugImage.mem_of_position? hposition)
    simp only [Option.map_some, Option.filter_some, decide_eq_true_eq]
    by_cases h0 : 0 ≤ position.inlinedFunctionIndex
    · have hlive := h.function_lt h0 hlt
      rw [show (position.rebase fnBase positionBase).inlinedFunctionIndex = _ from if_pos h0, if_pos (by omega),
        if_pos ⟨h0, hlt⟩]
      rfl
    · rw [show (position.rebase fnBase positionBase).inlinedFunctionIndex = _ from if_neg h0, if_neg (by omega),
        if_neg (by omega)]
      rfl

theorem logicalFrames_embeds {f : ℕ} (hf : f < image.functions.length) (guard : ℕ) (hpos : posId < image.sourcePositions.length) :
    logicalFrames live (f + fnBase) guard (rebaseId positionBase posId) =
      (logicalFrames image f guard posId).map (LogicalFrame.shift fnBase) := by
  induction guard generalizing posId with
  | zero => rfl
  | succ guard ih =>
    rw [logicalFrames, logicalFrames, h.inlined? hwf hpos, h.position? hpos, Option.map_map]
    cases hin : image.inlined? posId with
    | none =>
      have hown := h.file? (Int.natCast_nonneg f) (Int.ofNat_lt.2 hf)
      simp only [Option.map_none, Option.elim_none, map_cons, map_nil, hown]
      rfl
    | some position =>
      obtain ⟨hmem, h0, hlt⟩ := DebugImage.inlined?_eq_some hin
      have hcaller := ih (hwf.caller position hmem)
      have hrebased : (position.rebase fnBase positionBase).inlinedFunctionIndex =
          position.inlinedFunctionIndex + fnBase := if_pos h0
      simp only [Option.map_some, Option.elim_some, map_cons, hrebased, h.file? h0 hlt, ← hcaller]
      rfl

end

/-- **Source positions.** After any run of splices that meet the condition, a function of any of the images has at every
instruction the frames that its image alone gives, with the functions renumbered. -/
theorem spliceAll_frames (before after : List DebugImage) (image : DebugImage) (hwf : WellFormed image)
    (hrun : AllSpliceable ⟨[], [], []⟩ (before ++ image :: after)) (f ip : ℕ) (hf : f < image.functions.length) :
    framesAt (spliceAll (before ++ image :: after)) (f + (spliceAll before).functions.length) ip =
      (framesAt image f ip).map (map (LogicalFrame.shift (spliceAll before).functions.length)) := by
  obtain ⟨hstep, hafter⟩ := hrun.append
  have h : Embeds image (spliceAll (before ++ image :: after)) (spliceAll before).functions.length
      (spliceAll before).sourcePositions.length := by
    rw [spliceAll, foldl_append, foldl_cons]
    exact (splice_embeds hstep).run hafter
  generalize spliceAll (before ++ image :: after) = final at h
  have hi := getElem?_eq_getElem hf
  have hids := hwf.ids _ (getElem_mem hf)
  generalize image.functions[f] = fn at hi hids
  obtain ⟨spliced, hspliced, hpositions, -⟩ := h.function f fn hi
  have hframes := logicalFrames_embeds h hwf hf 100000 (positionFor_lt hids ip)
  rw [framesAt, framesAt, Nat.add_comm, hspliced, hi, Option.map_some, Option.map_some, Option.map_some, hpositions,
    positionFor_rebaseKnown, ← hframes, Nat.add_comm, Nat.cast_add]

/-- an image whose one instruction has a position, inlined from its other function -/
def positioned : DebugImage :=
  ⟨["a.js"], [⟨1, 0, -1, -1⟩, ⟨7, 3, 1, 0⟩], [⟨0, [⟨0, 1⟩]⟩, ⟨0, [⟨0, 0⟩]⟩]⟩

/-- an image of one function whose first instruction has no position -/
def unpositioned : DebugImage := ⟨["b.js"], [⟨4, 2, -1, -1⟩], [⟨0, [⟨0, -1⟩, ⟨1, 0⟩]⟩]⟩

/-- an image of one function, without debug tables -/
def stripped : DebugImage := ⟨[], [], [⟨0, []⟩]⟩

theorem spliceAll_frames_second : AllSpliceable ⟨[], [], []⟩ [unpositioned, positioned] ∧
    framesAt (spliceAll [unpositioned, positioned]) 1 0 =
      some [⟨2, some "a.js", some (7, 4)⟩, ⟨1, some "a.js", some (1, 1)⟩] := by
  have hrun : AllSpliceable ⟨[], [], []⟩ [unpositioned, positioned] := by
    refine ⟨?_, ?_, trivial⟩ <;> constructor <;> simp [spliceRuntimeImage, unpositioned, positioned, DebugFunction.rebase]
  have hwf : WellFormed positioned := by constructor <;> simp [positioned]
  exact ⟨hrun, spliceAll_frames [unpositioned] [] positioned hwf hrun 0 0 (by decide)⟩

/-- an instruction without a position gets the last one of the image before, and a function without a file one of its -/
theorem splice_misplaces :
    (framesAt unpositioned 0 0 = some [⟨0, some "b.js", none⟩] ∧
      framesAt (spliceAll [positioned, unpositioned]) 2 0 =
        some [⟨1, some "a.js", some (7, 4)⟩, ⟨2, some "b.js", some (1, 1)⟩]) ∧
      framesAt stripped 0 0 = some [⟨0, none, none⟩] ∧
        framesAt (spliceAll [positioned, stripped]) 2 0 = some [⟨2, some "a.js", none⟩] := by
  decide

end Maligator.Loader
