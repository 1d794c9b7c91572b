import InfixCalculator.Error

/-!
# Binary operators

An operator has a symbol, a function, a priority and an associativity.  Of two
neighbours the one of higher priority is applied first; of two with the same
priority the left one, unless both associate to the right.

* `Operator.yieldsTo`: the rule for two neighbours.
* `yieldsTo_trans`: an operator yields to all that its right neighbour yields to.
-/

namespace InfixCalculator

/-- How an operator groups beside another one of the same priority. -/
inductive Associativity
  /-- `(a - b) - c` -/
  | left
  /-- `a ^ (b ^ c)` -/
  | right
  /-- Groups to the left. -/
  | none
deriving DecidableEq, Repr

/-- A binary operator.  Its function may fail with any error. -/
structure Operator (α : Type) where
  symbol : List Char
  apply : α → α → Except Error α
  priority : Int64
  associativity : Associativity

namespace Operator

variable {α : Type}

/-- No priority is higher. -/
def maxPriority : Int64 := Int64.maxValue

/-- Is `next`, after the right operand of `op`, applied before `op`? -/
def yieldsTo (op next : Operator α) : Bool :=
  op.priority < next.priority ||
    (op.priority == next.priority && op.associativity == .right && next.associativity == .right)

theorem yieldsTo_iff {a b : Operator α} :
    a.yieldsTo b = true ↔ a.priority.toInt < b.priority.toInt ∨
      (a.priority.toInt = b.priority.toInt ∧ a.associativity = .right ∧
        b.associativity = .right) := by
  simp only [yieldsTo, Bool.or_eq_true, decide_eq_true_eq, Bool.and_eq_true, beq_iff_eq,
    Int64.lt_iff_toInt_lt, ← Int64.toInt_inj, and_assoc]

theorem yieldsTo_trans {a b c : Operator α} (hab : a.yieldsTo b = true)
    (hbc : b.yieldsTo c = true) : a.yieldsTo c = true := by
  rw [yieldsTo_iff] at *
  rcases hab with h | ⟨h, ha, _⟩
  · rcases hbc with g | ⟨g, _, _⟩ <;> exact Or.inl (by omega)
  · rcases hbc with g | ⟨g, _, hc⟩
    · exact Or.inl (by omega)
    · exact Or.inr ⟨by omega, ha, hc⟩

end Operator

end InfixCalculator
