import InfixCalculator.Expr

/-!
# Grouping a chain of operations

A chain is a list of operands with operators between them.  Its grouping is the
tree in which every operator is applied before the operators that yield to it.
The tree grows from the left: the next operator takes as its left operand the
largest part at the right edge whose operators all are applied before it.

* `Grouping.attach`: one more operator and operand at the right end.
* `Grouping.inorder`: the operands and operators from left to right.
* `inorder_attach`: attaching leaves what is there in its order.
-/

namespace InfixCalculator

/-- A grouped chain.  Operands are atoms, whatever operations they hold. -/
inductive Grouping (α : Type)
  | atom (e : Expr α)
  | node (l : Grouping α) (op : Operator α) (r : Grouping α)

namespace Grouping

variable {α : Type}

/-- The expression that a grouping stands for. -/
def toExpr : Grouping α → Expr α
  | atom e => e
  | node l op r => .bin l.toExpr op r.toExpr

/-- Puts an operator and its right operand at the end of a chain.  The operators at the right edge
that yield to it keep their place above it. -/
def attach (op : Operator α) (e : Expr α) : Grouping α → Grouping α
  | atom x => node (atom x) op (atom e)
  | node l m r =>
      if m.yieldsTo op then node l m (r.attach op e) else node (node l m r) op (atom e)

/-- The operands and operators from left to right. -/
def inorder : Grouping α → List (Expr α ⊕ Operator α)
  | atom e => [.inl e]
  | node l op r => l.inorder ++ .inr op :: r.inorder

@[simp] theorem inorder_attach (op : Operator α) (e : Expr α) (g : Grouping α) :
    (g.attach op e).inorder = g.inorder ++ [.inr op, .inl e] := by
  induction g with
  | atom x => rfl
  | node l m r _ ih =>
      unfold attach
      split
      · simp [inorder, ih]
      · simp [inorder]

end Grouping

end InfixCalculator
