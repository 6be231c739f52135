/-
Least sets closed under rules with one or two premises.

`Gen R init` is what can be derived from `init`; a rule derives an element from one element (`edge`) or from two (`join`).
A worklist that follows edges computes the edges' part of it; a rule with two premises has to wait for the later one.

`Gen.least`: it is below every closed set that contains `init`.
`Gen.mono`: what more elements and more rules derive.
-/
import Mathlib.Tactic

namespace Maligator.Closure

variable {α : Type*}

structure Rules (α : Type*) where
  edge : α → α → Prop
  join : α → α → α → Prop

structure Closed (R : Rules α) (S : α → Prop) : Prop where
  edge : ∀ {a b}, S a → R.edge a b → S b
  join : ∀ {a b c}, S a → S b → R.join a b c → S c

inductive Gen (R : Rules α) (init : α → Prop) : α → Prop
  | base {a : α} : init a → Gen R init a
  | edge {a b : α} : Gen R init a → R.edge a b → Gen R init b
  | join {a b c : α} : Gen R init a → Gen R init b → R.join a b c → Gen R init c

theorem Gen.least {R : Rules α} {init S : α → Prop} (hS : Closed R S) (hinit : ∀ a, init a → S a) {a : α}
    (h : Gen R init a) : S a := by
  induction h with
  | base h => exact hinit _ h
  | edge _ he ih => exact hS.edge ih he
  | join _ _ hj iha ihb => exact hS.join iha ihb hj

theorem Gen.mono {R R' : Rules α} {init init' : α → Prop} (hedge : ∀ a b, R.edge a b → R'.edge a b)
    (hjoin : ∀ a b c, R.join a b c → R'.join a b c) (hinit : ∀ a, init a → init' a) {a : α} (h : Gen R init a) :
    Gen R' init' a :=
  h.least ⟨fun ha he => .edge ha (hedge _ _ he), fun ha hb hj => .join ha hb (hjoin _ _ _ hj)⟩ fun _ hi => .base (hinit _ hi)

end Maligator.Closure
