import Mathlib.Order.Defs.LinearOrder
import Mathlib.Tactic.Common

/-!
# Three-valued conditions

A condition over nullable operands is true, false, or unknown; an unknown
operand makes a comparison unknown.  A row filter and a branch both take an
unknown condition as not met, which is why `Holds` and not `¬ Fails` is the
notion that the lemmas below compute.
-/

set_option autoImplicit false

namespace ThreeValued

/-- `none` is the unknown truth value. -/
abbrev Tri := Option Bool

/-- The one truth value that a filter or a branch accepts. -/
def Holds (condition : Tri) : Prop := condition = some true

instance (condition : Tri) : Decidable (Holds condition) :=
  inferInstanceAs (Decidable (condition = some true))

def negate (condition : Tri) : Tri := condition.map fun truth => !truth

def both : Tri → Tri → Tri
  | some true, right => right
  | some false, _ => some false
  | none, some false => some false
  | none, _ => none

section Comparison
variable {α : Type*}

def equal [DecidableEq α] (left right : Option α) : Tri :=
  left.bind fun a => right.map fun b => decide (a = b)

def atMost [LE α] [DecidableLE α] (left right : Option α) : Tri :=
  left.bind fun a => right.map fun b => decide (a ≤ b)

def above [LT α] [DecidableLT α] (left right : Option α) : Tri :=
  left.bind fun a => right.map fun b => decide (b < a)

end Comparison

@[simp] theorem holds_some (truth : Bool) : Holds (some truth) ↔ truth = true := by
  simp [Holds]

@[simp] theorem not_holds_none : ¬ Holds none := by simp [Holds]

@[simp] theorem holds_both (left right : Tri) :
    Holds (both left right) ↔ Holds left ∧ Holds right := by
  cases left with
  | none => cases right with
    | none => simp [both, Holds]
    | some b => cases b <;> simp [both, Holds]
  | some a => cases a <;> simp [both, Holds]

@[simp] theorem holds_negate (condition : Tri) :
    Holds (negate condition) ↔ condition = some false := by
  cases condition <;> simp [negate, Holds]

section Comparison
variable {α : Type*}

@[simp] theorem holds_equal [DecidableEq α] (left right : Option α) :
    Holds (equal left right) ↔ ∃ a, left = some a ∧ right = some a := by
  cases left <;> cases right <;> simp [equal, Holds, eq_comm]

@[simp] theorem holds_atMost [LE α] [DecidableLE α] (left right : Option α) :
    Holds (atMost left right) ↔ ∃ a b, left = some a ∧ right = some b ∧ a ≤ b := by
  cases left <;> cases right <;> simp [atMost, Holds]

@[simp] theorem holds_above [LT α] [DecidableLT α] (left right : Option α) :
    Holds (above left right) ↔ ∃ a b, left = some a ∧ right = some b ∧ b < a := by
  cases left <;> cases right <;> simp [above, Holds]

end Comparison

end ThreeValued
