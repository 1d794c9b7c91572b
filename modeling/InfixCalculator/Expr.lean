import InfixCalculator.Number
import InfixCalculator.Operator

/-!
# Expressions

A tree of numbers, negations and binary operations.

* `Expr.eval`: the value, or the error of the first operation that fails.
* `Expr.render`: the canonical text, with parentheses around every operation.
* `Expr.simplify`: a tree without negations.
* `Expr.subterms`: the tree and all trees below it, from the left.
* `Expr.numbers`, `Expr.operators`: what stands in the tree, from left to right.
-/

namespace InfixCalculator

/-- An expression over numbers of a type. -/
inductive Expr (α : Type)
  | num (x : α)
  | neg (e : Expr α)
  | bin (l : Expr α) (op : Operator α) (r : Expr α)

namespace Expr

variable {α : Type}

/-- The tree and all trees below it, each before its parts and left parts first. -/
def subterms : Expr α → List (Expr α)
  | num x => [num x]
  | neg e => neg e :: e.subterms
  | bin l op r => bin l op r :: (l.subterms ++ r.subterms)

/-- The numbers from left to right. -/
def numbers : Expr α → List α
  | num x => [x]
  | neg e => e.numbers
  | bin l _ r => l.numbers ++ r.numbers

/-- The operators from left to right. -/
def operators : Expr α → List (Operator α)
  | num _ => []
  | neg e => e.operators
  | bin l op r => l.operators ++ op :: r.operators

theorem forall_operators_bin {P : Operator α → Prop} {l r : Expr α} {op : Operator α} :
    (∀ o ∈ (bin l op r).operators, P o) ↔
      (∀ o ∈ l.operators, P o) ∧ P op ∧ ∀ o ∈ r.operators, P o := by
  rw [operators, List.forall_mem_append, List.forall_mem_cons]

variable [Number α]

/-- The value of an expression.  The left operand is evaluated first and the first failure is the
result. -/
def eval : Expr α → Except Error α
  | num x => .ok x
  | neg e => do
      let x ← e.eval
      Number.neg x
  | bin l op r => do
      let x ← l.eval
      let y ← r.eval
      op.apply x y

/-- The canonical text.  Every operation stands in parentheses and every negation has its operand
in parentheses. -/
def render : Expr α → List Char
  | num x => Number.text x
  | neg e => '-' :: '(' :: (e.render ++ [')'])
  | bin l op r => '(' :: (l.render ++ ' ' :: (op.symbol ++ ' ' :: (r.render ++ [')'])))

/-- The canonical text as a string. -/
def string (e : Expr α) : String := String.ofList e.render

/-- Multiplication that binds as tightly as possible. -/
def tightMul : Operator α := ⟨['*'], Number.mul, Operator.maxPriority, .left⟩

/-- Subtraction with the priority and associativity of another operator. -/
def subLike (op : Operator α) : Operator α := { op with symbol := ['-'], apply := Number.sub }

/-- Addition with the priority and associativity of another operator. -/
def addLike (op : Operator α) : Operator α := { op with symbol := ['+'], apply := Number.add }

/-- A tree without negations.  A negation becomes a product with `-1`, and a negation right of a
`+` or `-` turns that operator into the other one.  Only symbols are looked at, not the functions
they are bound to; the new operators are checked. -/
def simplify : Expr α → Expr α
  | num x => num x
  | neg e => bin (num Number.minusOne) tightMul e.simplify
  | bin l op (neg r) =>
      if op.symbol = ['+'] then bin l.simplify (subLike op) r.simplify
      else if op.symbol = ['-'] then bin l.simplify (addLike op) r.simplify
      else bin l.simplify op (bin (num Number.minusOne) tightMul r.simplify)
  | bin l op r => bin l.simplify op r.simplify

end Expr

end InfixCalculator
