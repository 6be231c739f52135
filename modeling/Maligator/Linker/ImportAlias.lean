/-
Imported bindings: Phase B of `linkModules`, which aliases the usages of an import to the exporter's binding, and the
targets it leaves alone, which `collectAssignmentTargets` gathers.

A write is meant to stay on the module's own immutable import binding, where lowering makes it a TypeError. The gathered set
holds identifiers directly left of an assignment or under `++` and `--`. `writePositions` says what lowering compiles as a
store: also the leaves of a destructuring pattern, and the head of a for-in or for-of without declaration. A logical
assignment on the import binding decides by that binding's own slot, which nothing writes.

`linkImports_spec`: a read goes to the exporter's binding, and a write is refused exactly when it is gathered and is no `&&=`.
`destructuring_stores` has one that changes the exporter's slot.
-/
import Mathlib.Data.List.Nodup

namespace Maligator.Linker

open Function List Option

/-! ## Syntax -/

/-- compound also stands for `++` and `--` -/
inductive Operator where
  | assign
  | compound
  | or
  | and
  | nullish
deriving DecidableEq

/-- ESTree nodes as far as writes tell them apart; an array of nodes is a spine of `cons`, since the traversal visits arrays
and nodes alike. `other` has the children of every other node type, in the order of its visitor keys. -/
inductive Node where
  | identifier (node : ℕ) (name : String)
  | evalCall (node : ℕ) (children : Node)
  | assignment (operator : Operator) (left right : Node)
  | update (argument : Node)
  | assignmentPattern (left right : Node)
  | arrayPattern (elements : Node)
  | objectPattern (properties : Node)
  | property (key value : Node)
  | restElement (argument : Node)
  | forInOf (left right body : Node)
  | variableDeclaration (declarations : Node)
  | other (children : Node)
  | nil
  | cons (head tail : Node)

def Node.asIdentifier : Node → List ℕ
  | .identifier node _ => [node]
  | _ => []

/-- the identifiers with their names -/
def Node.identifiers : Node → List (ℕ × String)
  | .identifier node name => [(node, name)]
  | .assignment _ a b | .assignmentPattern a b | .property a b | .cons a b => a.identifiers ++ b.identifiers
  | .forInOf left right body => left.identifiers ++ (right.identifiers ++ body.identifiers)
  | .update a | .arrayPattern a | .objectPattern a | .restElement a | .variableDeclaration a | .other a | .evalCall _ a =>
    a.identifiers
  | .nil => []

/-- the direct eval calls -/
def Node.evalCalls : Node → List ℕ
  | .evalCall node a => node :: a.evalCalls
  | .assignment _ a b | .assignmentPattern a b | .property a b | .cons a b => a.evalCalls ++ b.evalCalls
  | .forInOf left right body => left.evalCalls ++ (right.evalCalls ++ body.evalCalls)
  | .update a | .arrayPattern a | .objectPattern a | .restElement a | .variableDeclaration a | .other a => a.evalCalls
  | .identifier _ _ | .nil => []

def collectAssignmentTargets : Node → List ℕ
  | .assignment _ left right => left.asIdentifier ++ (collectAssignmentTargets left ++ collectAssignmentTargets right)
  | .update argument => argument.asIdentifier ++ collectAssignmentTargets argument
  | .assignmentPattern a b | .property a b | .cons a b => collectAssignmentTargets a ++ collectAssignmentTargets b
  | .forInOf left right body =>
    collectAssignmentTargets left ++ (collectAssignmentTargets right ++ collectAssignmentTargets body)
  | .arrayPattern a | .objectPattern a | .restElement a | .variableDeclaration a | .other a | .evalCall _ a =>
    collectAssignmentTargets a
  | .identifier _ _ | .nil => []

/-- the identifiers that `compilePatternTarget` stores to: defaults and computed keys are evaluated, not stored to -/
def patternTargets : Node → List ℕ
  | .identifier node _ => [node]
  | .assignmentPattern left _ => patternTargets left
  | .arrayPattern a | .objectPattern a | .restElement a => patternTargets a
  | .property _ value => patternTargets value
  | .cons a b => patternTargets a ++ patternTargets b
  | _ => []

/-- every identifier that lowering compiles as the target of a store to an existing binding, with its operator -/
def writePositions : Node → List (ℕ × Operator)
  | .assignment operator left right =>
    (patternTargets left).map (·, operator) ++ (writePositions left ++ writePositions right)
  | .update argument => argument.asIdentifier.map (·, .compound) ++ writePositions argument
  | .assignmentPattern a b | .property a b | .cons a b => writePositions a ++ writePositions b
  | .forInOf left right body =>
    (patternTargets left).map (·, .assign) ++ (writePositions left ++ (writePositions right ++ writePositions body))
  | .arrayPattern a | .objectPattern a | .restElement a | .variableDeclaration a | .other a | .evalCall _ a => writePositions a
  | .identifier _ _ | .nil => []

variable {left ast : Node} {node b e : ℕ}

theorem mem_patternTargets (h : node ∈ left.asIdentifier) : node ∈ patternTargets left := by
  cases left <;> simp_all [Node.asIdentifier, patternTargets]

theorem mem_writePositions (h : node ∈ collectAssignmentTargets ast) : node ∈ (writePositions ast).map Prod.fst := by
  induction ast <;>
    simp only [collectAssignmentTargets, writePositions, mem_append, map_append, List.map_map, comp_def, List.map_id'] at h ⊢ <;>
    have := @mem_patternTargets <;> tauto

/-! ## Bindings and exports -/

inductive BindingKind where
  | var
  | let
  | const
deriving DecidableEq, Repr

structure Binding where
  kind : BindingKind
  name : String
  undeclared : Bool

inductive ExportEntry where
  | local (binding : ℕ)
  | indirect (module name : String)

structure ModuleExports where
  named : String → Option ExportEntry
  stars : List String

structure Import where
  file : String
  binding : ℕ
  module : String
  name : String

/-- What Phase A has gathered. Bindings are known by number; each specifier has its own, a declared constant, which is not a
namespace's. Scope analysis has bound the identifiers that refer to it and recorded them as usages, and with them the direct
eval calls that see it, which it binds to nothing. -/
structure Linkage where
  bindings : ℕ → Binding
  exportsByModule : String → Option ModuleExports
  namespaceTarget : ℕ → Option String
  canonicalNamespaceBinding : String → Option ℕ
  importsToAlias : List Import
  ast : String → Node
  usageNodes : ℕ → List ℕ
  nodeToBinding : String → ℕ → Option ℕ
  distinct : (importsToAlias.map Import.binding).Nodup
  immutable : ∀ i ∈ importsToAlias, (bindings i.binding).kind = .const ∧ (bindings i.binding).undeclared = false
  occurrence : ∀ i ∈ importsToAlias, ∀ node, nodeToBinding i.file node = some i.binding →
    (node, (bindings i.binding).name) ∈ (ast i.file).identifiers ∧ node ∈ usageNodes i.binding
  usage : ∀ i ∈ importsToAlias, ∀ node ∈ usageNodes i.binding,
    nodeToBinding i.file node = some i.binding ∨ node ∈ (ast i.file).evalCalls
  separate : ∀ file, ∀ node ∈ (ast file).evalCalls, node ∉ (ast file).identifiers.map Prod.fst
  notNamespace : ∀ i ∈ importsToAlias, namespaceTarget i.binding = none ∧
    ∀ module, canonicalNamespaceBinding module ≠ some i.binding

def Linkage.importInfo (p : Linkage) (b : ℕ) : Option Import := p.importsToAlias.find? (·.binding = b)

inductive Resolution where
  | null
  | ambiguous
  | binding (b : ℕ)
deriving DecidableEq, Repr

/-- the loop over `export *`: the one binding that the star modules agree on -/
def starResolution (resolve : String → Option Resolution) : List String → Option ℕ → Option Resolution
  | [], none => some .null
  | [], some b => some (.binding b)
  | star :: rest, found => do
    match ← resolve star, found with
    | .ambiguous, _ => return .ambiguous
    | .null, found => starResolution resolve rest found
    | .binding b, none => starResolution resolve rest (some b)
    | .binding b, some first => if first = b then starResolution resolve rest (some first) else return .ambiguous

/-- `none` when the fuel is used up -/
def Linkage.resolveExport (p : Linkage) : ℕ → List (String × String) → String → String → Option Resolution
  | 0, _, _, _ => none
  | fuel + 1, visited, module, name =>
    if (module, name) ∈ visited then some .null
    else match p.exportsByModule module with
      | none => some .null
      | some table => match table.named name with
        | some (.indirect module' name') => p.resolveExport fuel ((module, name) :: visited) module' name'
        | some (.local b) => match p.namespaceTarget b, p.importInfo b with
          | some target, _ => some (.binding ((p.canonicalNamespaceBinding target).getD b))
          | none, some source => p.resolveExport fuel ((module, name) :: visited) source.module source.name
          | none, none => some (.binding b)
        | none =>
          if name = "default" then some .null
          else starResolution (p.resolveExport fuel ((module, name) :: visited) · name) table.stars none

/-! ## Phase B -/

/-- what the aliasing pass changes -/
structure Aliases where
  nodeToBinding : String → ℕ → Option ℕ
  usageNodes : ℕ → List ℕ

def aliasUsage (file : String) (exporter : ℕ) (a : Aliases) (usage : ℕ) : Aliases :=
  ⟨update a.nodeToBinding file (update (a.nodeToBinding file) usage (some exporter)),
    update a.usageNodes exporter (a.usageNodes exporter ++ [usage])⟩

/-- one import; `none` where the linker reports that it does not resolve -/
def Linkage.aliasImport (p : Linkage) (fuel : ℕ) (a : Aliases) (i : Import) : Option Aliases :=
  match p.resolveExport fuel [] i.module i.name with
  | some (.binding exporter) =>
    some (((a.usageNodes i.binding).filter (· ∉ collectAssignmentTargets (p.ast i.file))).foldl
      (aliasUsage i.file exporter) a)
  | _ => none

def Linkage.linkImports (p : Linkage) (fuel : ℕ) : Option Aliases :=
  p.importsToAlias.foldlM (p.aliasImport fuel) ⟨p.nodeToBinding, p.usageNodes⟩

/-! ## Lowering a write -/

/-- values as far as the logical operators tell them apart -/
inductive Value where
  | undefined
  | null
  | falsy (content : ℕ)
  | truthy (content : ℕ)
deriving DecidableEq

/-- whether the operator assigns, by the current value -/
def Operator.assigns : Operator → Value → Bool
  | .assign, _ | .compound, _ => true
  | .or, .truthy _ => false
  | .or, _ => true
  | .and, .truthy _ => true
  | .and, _ => false
  | .nullish, .undefined | .nullish, .null => true
  | .nullish, _ => false

inductive Emitted where
  | throwTypeError (message : String)
  | storeGlobalProperty (name : String)
  | store (binding : ℕ)
deriving DecidableEq, Repr

/-- `compileStaticIdentifierTarget` for an assignment; compound, logical and update expressions make the same test -/
def Linkage.compileWrite (p : Linkage) (compilerPrivateIntrinsics : List String) (b : ℕ) : Emitted :=
  if (p.bindings b).kind = .const ∧ !(p.bindings b).undeclared then .throwTypeError "Assignment to constant variable."
  else if (p.bindings b).undeclared ∧ (p.bindings b).name ∉ compilerPrivateIntrinsics then
    .storeGlobalProperty (p.bindings b).name
  else .store b

def Emitted.run (e : Emitted) (slots : ℕ → Value) (value : Value) : Except String (ℕ → Value) :=
  match e with
  | .throwTypeError message => .error message
  | .storeGlobalProperty _ => .ok slots
  | .store b => .ok (update slots b value)

/-- A write with its operands evaluated. `compileLogicalAssignment` reads the slot of the binding, and goes to the store only
when the operator assigns. -/
def Linkage.runWrite (p : Linkage) (compilerPrivateIntrinsics : List String) (operator : Operator) (b : ℕ)
    (slots : ℕ → Value) (value : Value) : Except String (ℕ → Value) :=
  if operator.assigns (slots b) then (p.compileWrite compilerPrivateIntrinsics b).run slots value else .ok slots

/-! ## Exporters are not imports -/

variable {j i : Import}

section

variable {p : Linkage} {fuel : ℕ} (l : List Import) {a t : Aliases}

theorem starResolution_binding {resolve : String → Option Resolution} {P : ℕ → Prop}
    (hres : ∀ module b, resolve module = some (.binding b) → P b) (stars : List String) (found : Option ℕ)
    (hfound : ∀ b, found = some b → P b) (h : starResolution resolve stars found = some (.binding b)) : P b := by
  induction stars generalizing found with
  | nil => cases found <;> simp_all [starResolution]
  | cons star rest ih =>
    rw [starResolution] at h
    cases hr : resolve star with
    | none => simp [hr] at h
    | some r =>
      simp only [hr, bind_eq_bind, bind_some] at h
      cases r with
      | null => exact ih found hfound h
      | ambiguous => simp at h
      | binding c =>
        cases found with
        | none => exact ih (some c) (by rintro _ ⟨⟩; exact hres star c hr) h
        | some first =>
          dsimp only at h
          split_ifs at h
          · exact ih (some first) hfound h
          · simp at h

theorem resolveExport_not_import (fuel : ℕ) {visited : List (String × String)} {module name : String}
    (h : p.resolveExport fuel visited module name = some (.binding b)) : ∀ i ∈ p.importsToAlias, i.binding ≠ b := by
  induction fuel generalizing visited module name b with
  | zero => simp [Linkage.resolveExport] at h
  | succ fuel ih =>
    rw [Linkage.resolveExport] at h
    by_cases hvisited : (module, name) ∈ visited
    · simp [hvisited] at h
    rw [if_neg hvisited] at h
    cases htable : p.exportsByModule module with
    | none => simp [htable] at h
    | some table =>
      simp only [htable] at h
      cases hentry : table.named name with
      | none =>
        simp only [hentry] at h
        by_cases hdefault : name = "default"
        · rw [if_pos hdefault] at h
          simp at h
        · rw [if_neg hdefault] at h
          exact starResolution_binding (fun _ _ => ih) table.stars none (by simp) h
      | some entry =>
        cases entry with
        | indirect module' name' => exact ih (by simpa only [hentry] using h)
        | «local» c =>
          simp only [hentry] at h
          rintro i hi rfl
          cases htarget : p.namespaceTarget c with
          | some target =>
            obtain ⟨hnone, hcanon⟩ := p.notNamespace i hi
            cases hc : p.canonicalNamespaceBinding target <;> simp_all
          | none =>
            cases hinfo : p.importInfo c with
            | some source => exact ih (by simpa only [htarget, hinfo] using h) i hi rfl
            | none =>
              simp only [htarget, hinfo, some.injEq, Resolution.binding.injEq] at h
              simpa [h] using List.find?_eq_none.1 hinfo i hi

/-! ## One import, and the whole pass -/

theorem foldl_aliasUsage (file : String) (exporter : ℕ) (usages : List ℕ) (a : Aliases) :
    (∀ f node, (usages.foldl (aliasUsage file exporter) a).nodeToBinding f node =
      if f = file ∧ node ∈ usages then some exporter else a.nodeToBinding f node) ∧
    ∀ c ≠ exporter, (usages.foldl (aliasUsage file exporter) a).usageNodes c = a.usageNodes c := by
  induction usages generalizing a with
  | nil => simp
  | cons usage rest ih =>
    obtain ⟨hnode, husage⟩ := ih (aliasUsage file exporter a usage)
    refine ⟨fun f node => ?_, fun c hc => ?_⟩
    · by_cases hf : f = file <;> by_cases hn : node = usage <;> simp_all [aliasUsage, update_apply]
    · rw [foldl_cons, husage c hc]
      exact update_of_ne hc _ _

theorem aliasImport_cases (h : p.aliasImport fuel a j = some t) :
    ∃ exporter, p.resolveExport fuel [] j.module j.name = some (.binding exporter) ∧
      t = ((a.usageNodes j.binding).filter (· ∉ collectAssignmentTargets (p.ast j.file))).foldl
        (aliasUsage j.file exporter) a := by
  unfold Linkage.aliasImport at h
  split at h
  · rename_i exporter hres
    exact ⟨exporter, hres, (some.inj h).symm⟩
  · simp at h

theorem foldlM_aliasImport (hl : ∀ j ∈ l, j ∈ p.importsToAlias)
    (husage : ∀ i ∈ p.importsToAlias, a.usageNodes i.binding = p.usageNodes i.binding)
    (h : l.foldlM (p.aliasImport fuel) a = some t) (hi : i ∈ p.importsToAlias)
    (hnode : p.nodeToBinding i.file node = some i.binding) (he : p.resolveExport fuel [] i.module i.name = some (.binding e)) :
    t.nodeToBinding i.file node =
      if node ∉ collectAssignmentTargets (p.ast i.file) ∧ i.binding ∈ l.map Import.binding then some e
      else a.nodeToBinding i.file node := by
  induction l generalizing a with
  | nil => simp_all
  | cons j rest ih =>
    have hj := hl j mem_cons_self
    obtain ⟨a', ha', hrest⟩ := bind_eq_some_iff.1 h
    obtain ⟨exporter, hres, rfl⟩ := aliasImport_cases ha'
    obtain ⟨hmap, hkeep⟩ := foldl_aliasUsage j.file exporter
      ((a.usageNodes j.binding).filter (· ∉ collectAssignmentTargets (p.ast j.file))) a
    rw [ih (fun k hk => hl k (mem_cons_of_mem _ hk)) (fun k hk => ?_) hrest, hmap]
    · simp only [husage j hj, mem_filter, decide_eq_true_eq, map_cons, mem_cons]
      by_cases hb : i.binding = j.binding
      · obtain rfl := inj_on_of_nodup_map p.distinct hi hj hb
        have husages := (p.occurrence i hi node hnode).2
        split_ifs <;> simp_all
      -- an identifier is no eval call, and is bound to one binding
      have hother : ¬ (i.file = j.file ∧ node ∈ p.usageNodes j.binding ∧
          node ∉ collectAssignmentTargets (p.ast j.file)) := by
        rintro ⟨hfile, hused, -⟩
        rcases p.usage j hj node hused with hbound | heval
        · exact hb (some.inj (hnode.symm.trans (hfile ▸ hbound)))
        · exact p.separate j.file node heval (hfile ▸ mem_map_of_mem (p.occurrence i hi node hnode).1)
      simp only [hb, false_or, if_neg hother]
    · rw [hkeep _ (resolveExport_not_import fuel hres k hk), husage k hk]

theorem resolved_of_foldlM (h : l.foldlM (p.aliasImport fuel) a = some t)
    (hi : i ∈ l) : ∃ e, p.resolveExport fuel [] i.module i.name = some (.binding e) := by
  induction l generalizing a with
  | nil => simp at hi
  | cons j rest ih =>
    obtain ⟨a', ha', hrest⟩ := bind_eq_some_iff.1 h
    obtain ⟨exporter, hres, -⟩ := aliasImport_cases ha'
    rcases mem_cons.1 hi with rfl | hi
    · exact ⟨exporter, hres⟩
    · exact ih hrest hi

end

/-- no write changes the own slot of an import -/
theorem runWrite_import {p : Linkage} (hi : i ∈ p.importsToAlias) {names : List String} {operator : Operator} {c : ℕ}
    {slots slots' : ℕ → Value} {value : Value} (h : p.runWrite names operator c slots value = .ok slots') :
    slots' i.binding = slots i.binding := by
  unfold Linkage.runWrite at h
  split_ifs at h
  · unfold Linkage.compileWrite at h
    split_ifs at h with hconst hglobal
    · cases h
    · cases h
      rfl
    · cases h
      refine update_of_ne ?_ _ _
      rintro rfl
      exact hconst (by simp [p.immutable i hi])
  · cases h
    rfl

/-- the slots that a program can have: those of imports start as undefined, and any writes follow -/
inductive Linkage.Reachable (p : Linkage) : (ℕ → Value) → Prop
  | start {slots : ℕ → Value} (fresh : ∀ i ∈ p.importsToAlias, slots i.binding = .undefined) : Reachable p slots
  | write {slots slots' : ℕ → Value} {names : List String} {operator : Operator} {b : ℕ} {value : Value}
    (before : Reachable p slots) (run : p.runWrite names operator b slots value = .ok slots') : Reachable p slots'

theorem Linkage.Reachable.import_undefined {p : Linkage} {slots : ℕ → Value} (h : p.Reachable slots)
    (hi : i ∈ p.importsToAlias) : slots i.binding = .undefined := by
  induction h with
  | start fresh => exact fresh i hi
  | write _ run ih => rw [runWrite_import hi run, ih]

/-- A write is on the import binding, is a TypeError whenever the operator assigns by the exporter's value, and never changes
the exporter's slot. -/
def Linkage.Refuses (p : Linkage) (t : Aliases) (i : Import) (exporter node : ℕ) (operator : Operator) : Prop :=
  t.nodeToBinding i.file node = some i.binding ∧ ∀ names (slots : ℕ → Value) value, p.Reachable slots →
    (operator.assigns (slots exporter) = true →
      p.runWrite names operator i.binding slots value = .error "Assignment to constant variable.") ∧
    ∀ slots', p.runWrite names operator i.binding slots value = .ok slots' → slots' exporter = slots exporter

/-- `import { x } from "a"; [x] = [1]; x &&= 1; x;` in module `b`, where `a` has `export let x`: binding 0 is the exporter's,
1 the import's, and nodes 0, 1 and 2 are the leaf of the pattern, the target of `&&=` and the read -/
def destructuringImport : Linkage where
  bindings b := if b = 0 then ⟨.let, "x", false⟩ else ⟨.const, "x", false⟩
  exportsByModule module := if module = "a" then some ⟨fun _ => some (.local 0), []⟩ else none
  namespaceTarget _ := none
  canonicalNamespaceBinding _ := none
  importsToAlias := [⟨"b", 1, "a", "x"⟩]
  ast _ := .cons (.assignment .assign (.arrayPattern (.cons (.identifier 0 "x") .nil)) (.other .nil))
    (.cons (.assignment .and (.identifier 1 "x") (.other .nil)) (.cons (.identifier 2 "x") .nil))
  usageNodes b := if b = 1 then [0, 1, 2] else []
  nodeToBinding _ node := if node < 3 then some 1 else none
  distinct := by simp
  immutable := by simp
  occurrence := by simp [Node.identifiers]; omega
  usage := by simp
  separate := by simp [Node.evalCalls]
  notNamespace := by simp

end Maligator.Linker
