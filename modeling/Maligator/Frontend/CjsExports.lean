/-
CommonJS modules that run at program start (`cjs-exports.ts`).

`isPureDataCjsModule` looks at the syntax alone. `runBody` is what a body does in a fresh module record: the accesses to its
own module and exports objects, and all else: a call, a throw, and the reads of any other object, as when one is converted.
A property is stored as [[Set]] does it (`vm_ops.c`): `Object.slot` finds what decides, on the object or its prototypes.
The program's other expressions, which only the key of a computed target can hold, are a parameter (`World.outcome`).

The check leaves out the operands of operators, that key, and the object that a property is stored on.
`pureData_unobservable`: an accepted module is unobservable exactly when these are plain.
-/
import Mathlib.Data.List.Basic
import Mathlib.Data.Rat.Defs

namespace Maligator.Frontend

/-! ## The check -/

inductive Number where
  | nan
  | infinity (negative : Bool)
  | finite (value : ℚ)

inductive Literal where
  | null
  | boolean (value : Bool)
  | number (value : Number)
  | bigint (value : ℤ)
  | string (text : String)
  | regExp

/-- other: typeof, delete -/
inductive UnaryOperator where
  | minus
  | plus
  | complement
  | not
  | void
  | other
  deriving DecidableEq

/-- method: also the shorthand form, whose `__proto__` is a property like any other -/
inductive PropertyKind where
  | init
  | method
  | get
  | set

/-- the ESTree nodes that matter here, and the others by a number; a hole is the null of an array literal -/
inductive Node where
  | literal (value : Literal)
  | function
  | identifier (name : String)
  | unary (operator : UnaryOperator) (argument : Node)
  | array (elements : List Node)
  | hole
  | object (properties : List Node)
  | property (kind : PropertyKind) (computed : Bool) (key value : Node)
  | member (object property : Node) (computed : Bool)
  | call (callee : Node)
  | other (form : ℕ)

/-- an assignment with `=`, or anything else -/
inductive Statement where
  | assignment (left right : Node)
  | other

def isExportsIdentifier : Node → Bool
  | .identifier name => name == "exports"
  | _ => false

def isModuleExports : Node → Bool
  | .member (.identifier object) (.identifier property) false => object == "module" && property == "exports"
  | _ => false

def isHole : Node → Bool
  | .hole => true
  | _ => false

mutual

def isPureValue : Node → Bool
  | .literal _ | .function => true
  | .identifier name => name == "undefined"
  | .unary operator argument => operator != .other && isPureValue argument
  | .array elements => arePureElements elements
  | .object properties => arePureProperties properties
  | _ => false

def arePureElements : List Node → Bool
  | [] => true
  | element :: elements => (isHole element || isPureValue element) && arePureElements elements

def arePureProperties : List Node → Bool
  | [] => true
  | .property _ computed _ value :: properties => !computed && isPureValue value && arePureProperties properties
  | _ :: _ => false

end

def isExportTarget : Node → Bool
  | .member object property computed => isModuleExports (.member object property computed) ||
    isExportsIdentifier object || isModuleExports object
  | _ => false

def isPureDataCjsModule (body : List Statement) : Bool :=
  body.all fun
    | .assignment left right => isExportTarget left && isPureValue right
    | .other => false

/-! ## Objects -/

inductive Shape where
  | plain
  | array
  | function
  | regExp
  deriving DecidableEq

/-- what a store meets: a writable property or none, a read-only one or a getter alone, a setter, the poisoned properties of
functions, the length of an array, the `__proto__` of Object.prototype -/
inductive Slot where
  | data
  | readOnly
  | setter
  | thrower
  | length
  | prototype
  deriving DecidableEq

/-- an object of the prototype chain, without the values of its properties -/
structure Level where
  shape : Shape
  own : List (String × Slot)

/-- `rooted`: the chain ends in the intrinsic prototypes of its last object, and not in null -/
structure Object where
  top : Level
  chain : List Level
  rooted : Bool

inductive Value where
  | undefined
  | null
  | boolean (value : Bool)
  | number (value : Number)
  | bigint (value : ℤ)
  | string (text : String)
  | object (object : Object)

def Value.isObject : Value → Bool
  | .object _ => true
  | _ => false

def Object.fresh (shape : Shape) (own : List (String × Slot)) : Object := ⟨⟨shape, own⟩, [], true⟩

def Level.slot (level : Level) (key : String) : Option Slot :=
  if level.shape = .array ∧ key = "length" then some .length
  else if level.shape = .function ∧ (key = "name" ∨ key = "length") then some .readOnly
  else if level.shape = .regExp ∧ key = "lastIndex" then some .data
  else level.own.lookup key

def Slot.inherited : Slot → Slot
  | .length => .data
  | slot => slot

def regExpGetters : List String :=
  ["source", "flags", "hasIndices", "global", "ignoreCase", "multiline", "dotAll", "unicode", "unicodeSets", "sticky"]

/-- the intrinsic prototypes -/
def rootSlot (shape : Shape) (key : String) : Slot :=
  if key = "__proto__" then .prototype
  else if shape = .function ∧ (key = "caller" ∨ key = "arguments") then .thrower
  else if shape = .regExp ∧ key ∈ regExpGetters then .readOnly
  else .data

def Object.slot (object : Object) (key : String) : Slot :=
  match object.top.slot key with
  | some slot => slot
  | none =>
    match object.chain.findSome? (·.slot key) with
    | some slot => slot.inherited
    | none => if object.rooted then rootSlot (object.chain.getLastD object.top).shape key else .data

def Object.define (object : Object) (key : String) (slot : Slot) : Object :=
  { object with top := { object.top with own := (key, slot) :: object.top.own.filter (·.1 ≠ key) } }

/-- an object or null becomes the prototype, anything else is ignored -/
def Object.setPrototype (object : Object) : Value → Object
  | .object prototype => { object with chain := prototype.top :: prototype.chain, rooted := prototype.rooted }
  | .null => { object with chain := [], rooted := false }
  | _ => object

def arrayIndex (key : String) : Option ℕ := key.toNat?.filter fun n => toString n = key ∧ n < 0xFFFFFFFF

def Object.truncate (object : Object) (length : ℕ) : Object :=
  { object with top :=
    { object.top with own := object.top.own.filter fun entry => (arrayIndex entry.1).all (· < length) } }

/-! ## Values -/

inductive Effect where
  /-- module.exports is read or set -/
  | module
  /-- a property of an exports object is set -/
  | exports
  /-- an object is read for its conversion methods, which run -/
  | converts
  | calls
  | throws
  /-- anything else is read or done -/
  | outside
  deriving DecidableEq

def Effect.own : Effect → Bool
  | .module | .exports => true
  | _ => false

def andThen (first second : List Effect) : List Effect := if .throws ∈ first then first else first ++ second

/-- the exports object, and what has replaced it as module.exports -/
structure State where
  exports : Object
  held : Option Value

def State.fresh : State := ⟨.fresh .plain [], none⟩

/-- the texts of numbers, and what the expressions do and give that are not modelled -/
structure World where
  numberText : Number → String
  stringNumber : String → Number
  outcome : State → Node → List Effect × Value

def Number.negate : Number → Number
  | .nan => .nan
  | .infinity negative => .infinity !negative
  | .finite value => .finite (-value)

/-- through a 32-bit integer -/
def Number.complement : Number → Number
  | .finite value => .finite (-(BitVec.ofInt 32 (value.num.tdiv value.den)).toInt - 1)
  | _ => .finite (-1)

def Number.truthy : Number → Bool
  | .nan => false
  | .infinity _ => true
  | .finite value => value ≠ 0

def Value.truthy : Value → Bool
  | .undefined | .null => false
  | .boolean value => value
  | .number value => value.truthy
  | .bigint value => value ≠ 0
  | .string text => text ≠ ""
  | .object _ => true

section Evaluation

variable (world : World) (st : State)

/-- ToNumber; an object is converted before, and a BigInt is no number -/
def Value.toNumber : Value → Number
  | .null => .finite 0
  | .boolean value => .finite (if value then 1 else 0)
  | .number value => value
  | .string text => world.stringNumber text
  | _ => .nan

def Value.propertyKey : Value → String
  | .undefined => "undefined"
  | .null => "null"
  | .boolean value => if value then "true" else "false"
  | .number value => world.numberText value
  | .bigint value => toString value
  | .string text => text
  | .object _ => ""

def operateValue (operator : UnaryOperator) (value : Value) : Value :=
  match operator, value with
  | .minus, .bigint n => .bigint (-n)
  | .minus, value => .number (value.toNumber world).negate
  | .complement, .bigint n => .bigint (-n - 1)
  | .complement, value => .number (value.toNumber world).complement
  | .plus, value => .number (value.toNumber world)
  | .not, value => .boolean !value.truthy
  | _, _ => .undefined

def literalValue : Literal → Value
  | .null => .null
  | .boolean value => .boolean value
  | .number value => .number value
  | .bigint value => .bigint value
  | .string text => .string text
  | .regExp => .object (.fresh .regExp [])

def staticKey : Node → String
  | .identifier name => name
  | .literal value => (literalValue value).propertyKey world
  | _ => ""

def elementSlots (elements : List Node) : List (String × Slot) :=
  (elements.zipIdx.filter fun element => !isHole element.1).map fun element => (toString element.2, .data)

/-- a member of an object literal; a getter joins the setter of its name -/
def addProperty (object : Object) (kind : PropertyKind) (key : String) (value : Value) : Object :=
  match kind with
  | .init => if key = "__proto__" then object.setPrototype value else object.define key .data
  | .method => object.define key .data
  | .get => object.define key (if object.top.own.lookup key = some .setter then .setter else .readOnly)
  | .set => object.define key .setter

mutual

def value : Node → Value
  | .literal literal => literalValue literal
  | .function => .object (.fresh .function [])
  | .identifier name => if name = "undefined" then .undefined else (world.outcome st (.identifier name)).2
  | .unary .other argument => (world.outcome st (.unary .other argument)).2
  | .unary operator argument => operateValue world operator (value argument)
  | .array elements => .object (.fresh .array (elementSlots elements))
  | .object properties => .object (addProperties properties (.fresh .plain []))
  | node => (world.outcome st node).2

def addProperties : List Node → Object → Object
  | [], object => object
  | .property kind _ key node :: properties, object =>
    addProperties properties (addProperty object kind (staticKey world key) (value node))
  | _ :: properties, object => addProperties properties object

end

def toPrimitive (value : Value) : List Effect := if value.isObject then [.converts] else []

def operate (operator : UnaryOperator) (value : Value) : List Effect :=
  match operator, value with
  | .plus, .bigint _ => [.throws]
  | .plus, _ | .minus, _ | .complement, _ => toPrimitive value
  | _, _ => []

mutual

def effects : Node → List Effect
  | .literal _ | .function | .hole => []
  | .identifier name => if name = "undefined" then [] else (world.outcome st (.identifier name)).1
  | .unary .other argument => (world.outcome st (.unary .other argument)).1
  | .unary operator argument => andThen (effects argument) (operate operator (value world st argument))
  | .array elements => allEffects elements
  | .object properties => allEffects properties
  | .property _ computed key node =>
    andThen (if computed then andThen (effects key) (toPrimitive (value world st key)) else []) (effects node)
  | .call callee => andThen (effects callee) [.calls]
  | node => (world.outcome st node).1

def allEffects : List Node → List Effect
  | [] => []
  | node :: nodes => andThen (effects node) (allEffects nodes)

end

/-! ## Running a body -/

variable (strict : Bool)

/-- a refused store throws in strict code only -/
def refused : List Effect := if strict then [.throws] else []

/-- ArraySetLength -/
def newLength (value : Value) : Option ℕ :=
  match value with
  | .bigint _ | .object _ => none
  | value =>
    match value.toNumber world with
    | .finite n => if n.den = 1 ∧ 0 ≤ n.num ∧ n.num < 0x100000000 then some n.num.toNat else none
    | _ => none

/-- [[Set]] of an object on itself -/
def Object.set (object : Object) (key : String) (value : Value) : Object × List Effect :=
  match object.slot key with
  | .data => (object.define key .data, [.exports])
  | .readOnly => (object, refused strict)
  | .setter => (object, [.calls])
  | .thrower => (object, [.throws])
  | .prototype => (object.setPrototype value, [.exports])
  | .length =>
    match newLength world value with
    | some length => (object.truncate length, [.exports])
    | none => (object, if value.isObject then [.converts] else [.throws])

/-- only the setter of `__proto__` takes a primitive -/
def setPrimitive (base : Value) (key : String) : List Effect :=
  match base with
  | .undefined | .null => [.throws]
  | _ => if key = "__proto__" then [] else refused strict

/-- what `exports` or `module.exports` is -/
def State.base (object : Node) : Value :=
  if isExportsIdentifier object then .object st.exports else st.held.getD (.object st.exports)

def State.store (object : Node) (key : String) (value : Value) : State × List Effect :=
  match st.base object with
  | .object target =>
    let stored := target.set world strict key value
    (if isExportsIdentifier object || st.held.isNone then { st with exports := stored.1 }
      else { st with held := some (.object stored.1) }, stored.2)
  | base => (st, setPrimitive strict base key)

def targetKey (property : Node) (computed : Bool) : String :=
  if computed then (value world st property).propertyKey world else staticKey world property

def keyEffects (property : Node) (computed : Bool) : List Effect :=
  if computed then andThen (effects world st property) (toPrimitive (value world st property)) else []

def exec : Statement → State × List Effect
  | .assignment (.member object property computed) right =>
    if isModuleExports (.member object property computed) then
      ({ st with held := some (value world st right) }, andThen (effects world st right) [.module])
    else if isExportsIdentifier object || isModuleExports object then
      let stored := st.store world strict object (targetKey world st property computed) (value world st right)
      (stored.1, andThen (if isExportsIdentifier object then [] else [.module])
        (andThen (andThen (keyEffects world st property computed) (effects world st right)) stored.2))
    else (st, [.outside])
  | _ => (st, [.outside])

end Evaluation

def runBody (world : World) (strict : Bool) (st : State) : List Statement → List Effect
  | [] => []
  | statement :: body =>
    andThen (exec world st strict statement).2 (runBody world strict (exec world st strict statement).1 body)

/-! ## What is plain -/

mutual

def operations : Node → List (UnaryOperator × Node)
  | .unary operator argument => (operator, argument) :: operations argument
  | .array elements => allOperations elements
  | .object properties => allOperations properties
  | .property _ _ _ value => operations value
  | _ => []

def allOperations : List Node → List (UnaryOperator × Node)
  | [] => []
  | node :: nodes => operations node ++ allOperations nodes

end

def AllOwn (effects : List Effect) : Prop := ∀ e ∈ effects, e.own = true

section Plain

variable (world : World) (st : State) (strict : Bool)

/-- `-`, `+` and `~` convert no object, and `+` takes no BigInt -/
def Quiet (operators : List (UnaryOperator × Node)) : Prop :=
  ∀ p ∈ operators, operate p.1 (value world st p.2) = []

/-- the key has no effects of its own, and is no object -/
def PlainKey (property : Node) (computed : Bool) : Prop :=
  computed = true → AllOwn (effects world st property) ∧ (value world st property).isObject = false

/-- no setter and no poisoned property is met, in strict code nothing read-only, and an array gets a length -/
def Object.Takes (object : Object) (key : String) (value : Value) : Prop :=
  object.slot key ≠ .setter ∧ object.slot key ≠ .thrower ∧ (strict = true → object.slot key ≠ .readOnly) ∧
    (object.slot key = .length → (newLength world value).isSome = true)

def Value.Takes (base : Value) (key : String) (value : Value) : Prop :=
  match base with
  | .object target => target.Takes world strict key value
  | .undefined | .null => False
  | _ => strict = true → key = "__proto__"

def PlainTarget (left right : Node) : Prop :=
  match left with
  | .member object property computed => isModuleExports (.member object property computed) = true ∨
    PlainKey world st property computed ∧
      (st.base object).Takes world strict (targetKey world st property computed) (value world st right)
  | _ => False

instance (operators : List (UnaryOperator × Node)) : Decidable (Quiet world st operators) := by
  unfold Quiet
  infer_instance

instance (property : Node) (computed : Bool) : Decidable (PlainKey world st property computed) := by
  unfold PlainKey AllOwn
  infer_instance

instance (base : Value) (key : String) (value : Value) : Decidable (base.Takes world strict key value) := by
  unfold Value.Takes Object.Takes
  split <;> infer_instance

instance (left right : Node) : Decidable (PlainTarget world st strict left right) := by
  unfold PlainTarget
  split <;> infer_instance

end Plain

/-- what the check does not look at, in the states before the statements -/
def Plain (world : World) (strict : Bool) (st : State) : List Statement → Prop
  | .assignment left right :: body =>
    (Quiet world st (operations right) ∧ PlainTarget world st strict left right) ∧
      Plain world strict (exec world st strict (.assignment left right)).1 body
  | _ => True

instance decidablePlain (world : World) (strict : Bool) (st : State) : ∀ body, Decidable (Plain world strict st body)
  | [] | .other :: _ => .isTrue trivial
  | .assignment left right :: body =>
    have := decidablePlain world strict (exec world st strict (.assignment left right)).1 body
    inferInstanceAs (Decidable (_ ∧ _))

/-! ## Exactness -/

section Own

variable {world : World} {st : State} {strict : Bool}

@[simp] theorem allOwn_nil : AllOwn [] := fun _ => nofun

/-- a throw is observable itself -/
theorem allOwn_andThen {first second : List Effect} : AllOwn (andThen first second) ↔ AllOwn first ∧ AllOwn second := by
  rw [andThen]
  split_ifs with hthrows
  · exact ⟨fun h => absurd (h _ hthrows) (by decide), And.left⟩
  · exact List.forall_mem_append

theorem quiet_append {first second : List (UnaryOperator × Node)} :
    Quiet world st (first ++ second) ↔ Quiet world st first ∧ Quiet world st second := List.forall_mem_append

theorem allOwn_toPrimitive {value : Value} : AllOwn (toPrimitive value) ↔ value.isObject = false := by
  rw [toPrimitive]
  split_ifs with hobject <;> simp [hobject, AllOwn, Effect.own]

theorem allOwn_operate {operator : UnaryOperator} {value : Value} :
    AllOwn (operate operator value) ↔ operate operator value = [] := by
  refine ⟨fun h => ?_, fun h => h ▸ allOwn_nil⟩
  rw [List.eq_nil_iff_forall_not_mem]
  intro e he
  have hown := h e he
  unfold operate toPrimitive at he
  split at he <;> (try split_ifs at he) <;> simp at he <;> subst he <;> cases hown

mutual

/-- **A pure value** is unobservable exactly when its operators are. -/
theorem allOwn_effects : ∀ {node : Node}, isPureValue node = true →
    (AllOwn (effects world st node) ↔ Quiet world st (operations node))
  | .literal _, _ | .function, _ => by simp [effects, operations, Quiet]
  | .identifier name, h => by
    rw [isPureValue, beq_iff_eq] at h
    simp [effects, operations, Quiet, h]
  | .unary operator argument, h => by
    rw [isPureValue, Bool.and_eq_true, bne_iff_ne] at h
    have heffects : effects world st (.unary operator argument) =
        andThen (effects world st argument) (operate operator (value world st argument)) := by
      rw [effects]
      exact h.1
    rw [heffects, allOwn_andThen, allOwn_operate, allOwn_effects h.2, operations, Quiet, Quiet, List.forall_mem_cons, and_comm]
  | .array elements, h => by
    rw [isPureValue] at h
    rw [effects, operations, allOwn_elements h]
  | .object properties, h => by
    rw [isPureValue] at h
    rw [effects, operations, allOwn_properties h]

theorem allOwn_elements : ∀ {elements : List Node}, arePureElements elements = true →
    (AllOwn (allEffects world st elements) ↔ Quiet world st (allOperations elements))
  | [], _ => by simp [allEffects, allOperations, Quiet]
  | element :: elements, h => by
    rw [arePureElements, Bool.and_eq_true, Bool.or_eq_true] at h
    have helement : AllOwn (effects world st element) ↔ Quiet world st (operations element) := by
      rcases h.1 with hhole | hpure
      · cases element with
        | hole => simp [effects, operations, Quiet]
        | _ => cases hhole
      · exact allOwn_effects hpure
    rw [allEffects, allOperations, allOwn_andThen, quiet_append, helement, allOwn_elements h.2]

theorem allOwn_properties : ∀ {properties : List Node}, arePureProperties properties = true →
    (AllOwn (allEffects world st properties) ↔ Quiet world st (allOperations properties))
  | [], _ => by simp [allEffects, allOperations, Quiet]
  | .property kind computed key node :: properties, h => by
    rw [arePureProperties, Bool.and_eq_true, Bool.and_eq_true, Bool.not_eq_true'] at h
    rw [allEffects, allOperations, allOwn_andThen, quiet_append, effects, h.1.1, operations, allOwn_andThen,
      allOwn_effects h.1.2, allOwn_properties h.2]
    simp

end

theorem allOwn_keyEffects {property : Node} {computed : Bool} :
    AllOwn (keyEffects world st property computed) ↔ PlainKey world st property computed := by
  rw [keyEffects, PlainKey]
  cases computed <;> simp [allOwn_andThen, allOwn_toPrimitive]

/-- **A store** is unobservable exactly when the object takes it. -/
theorem allOwn_set {object : Object} {key : String} {value : Value} :
    AllOwn (object.set world strict key value).2 ↔ object.Takes world strict key value := by
  rw [Object.set, Object.Takes]
  cases object.slot key with
  | length =>
    cases newLength world value <;> simp [AllOwn, Effect.own]
    split_ifs <;> simp
  | readOnly => cases strict <;> simp [AllOwn, Effect.own, refused]
  | _ => simp [AllOwn, Effect.own]

theorem allOwn_store {object : Node} {key : String} {value : Value} :
    AllOwn (st.store world strict object key value).2 ↔ (st.base object).Takes world strict key value := by
  rw [State.store]
  cases st.base object with
  | object target => exact allOwn_set
  | undefined | null => simp [setPrimitive, Value.Takes, AllOwn, Effect.own]
  | _ =>
    simp only [setPrimitive, Value.Takes]
    split_ifs with hkey <;> cases strict <;> simp [hkey, refused, AllOwn, Effect.own]

theorem allOwn_exec {left right : Node} (htarget : isExportTarget left = true) (hpure : isPureValue right = true) :
    AllOwn (exec world st strict (.assignment left right)).2 ↔
      Quiet world st (operations right) ∧ PlainTarget world st strict left right := by
  cases left with
  | member object property computed =>
    rw [exec, PlainTarget]
    by_cases hmodule : isModuleExports (.member object property computed) = true
    · rw [if_pos hmodule, allOwn_andThen, allOwn_effects hpure]
      simp [hmodule, AllOwn, Effect.own]
    rw [isExportTarget, Bool.eq_false_iff.2 hmodule, Bool.false_or] at htarget
    have haccess : AllOwn (if isExportsIdentifier object then [] else [Effect.module]) := by
      split_ifs <;> simp [AllOwn, Effect.own]
    rw [if_neg hmodule, if_pos htarget]
    simp only [allOwn_andThen, allOwn_keyEffects, allOwn_effects hpure, allOwn_store, haccess, hmodule, true_and, false_or,
      Bool.false_eq_true]
    rw [and_comm (b := Quiet ..), and_assoc]
  | _ => cases htarget

theorem allOwn_runBody (body : List Statement) : ∀ {st : State}, isPureDataCjsModule body = true →
    (AllOwn (runBody world strict st body) ↔ Plain world strict st body) := by
  induction body with
  | nil => exact fun _ => ⟨fun _ => trivial, fun _ => allOwn_nil⟩
  | cons statement body ih =>
    intro st hpure
    cases statement with
    | other => cases hpure
    | assignment left right =>
      rw [isPureDataCjsModule, List.all_cons, Bool.and_eq_true, Bool.and_eq_true] at hpure
      obtain ⟨⟨htarget, hvalue⟩, hrest⟩ := hpure
      rw [runBody, Plain, allOwn_andThen, allOwn_exec htarget hvalue, ih hrest]

end Own

/-- a world in which every expression that is not modelled reads something else -/
def strangeWorld : World := ⟨fun _ => "0", fun _ => .nan, fun _ _ => ([.outside], .undefined)⟩

def exportsMember (key : Node) (computed : Bool) : Node := .member (.identifier "exports") key computed

def moduleExports : Node := .member (.identifier "module") (.identifier "exports") false

/-- `exports["a"] = -1; module.exports = { set b(v) {}, c: [undefined] }; module.exports.c = 1; exports.b = 2` -/
def replacedModule : List Statement := [
  .assignment (exportsMember (.literal (.string "a")) true) (.unary .minus (.literal (.number (.finite 1)))),
  .assignment moduleExports (.object [.property .set false (.identifier "b") .function,
    .property .init false (.identifier "c") (.array [.identifier "undefined"])]),
  .assignment (.member moduleExports (.identifier "c") false) (.literal (.number (.finite 1))),
  .assignment (exportsMember (.identifier "b") false) (.literal (.number (.finite 2)))]

end Maligator.Frontend
