import InfixCalculator.Cursor
import InfixCalculator.Operator.Table
import InfixCalculator.Expr.Grouping

/-!
# Reading expressions

An expression is a chain of operands with operators between them.  An operand is
a literal, an expression in parentheses, or a `-` in front of an operand.  Blanks
may stand around operands, but not between a `-` and its operand.

The text is read from the left.  What has been read and is not complete yet is
kept in frames, one for the chain that is being read and one for every
parenthesis around it.

* `Frame.complete`: the chain of a frame with one more operand.
* `Reader.run`: reads what is left of a text; ends because every step shortens it.
* `Expr.read`: the expression of a whole text, or the first fault.
-/

namespace InfixCalculator

/-- A chain that waits for an operand. -/
structure Frame (α : Type) where
  /-- What stands before the operand: a chain and the operator after it. -/
  pending : Option (Grouping α × Operator α)
  /-- The number of `-` before the operand. -/
  minuses : Nat

namespace Frame

variable {α : Type}

/-- A chain that waits for its first operand. -/
def start : Frame α := ⟨none, 0⟩

/-- A chain that waits for the right operand of an operator. -/
def after (chain : Grouping α) (op : Operator α) : Frame α := ⟨some (chain, op), 0⟩

/-- The frame with one more `-`. -/
def negate (f : Frame α) : Frame α := { f with minuses := f.minuses + 1 }

/-- The operand with the `-` before it. -/
def operand (f : Frame α) (e : Expr α) : Expr α := f.minuses.repeat Expr.neg e

/-- The chain with the operand that it waits for. -/
def complete (f : Frame α) (e : Expr α) : Grouping α :=
  match f.pending with
  | none => .atom (f.operand e)
  | some (chain, op) => chain.attach op (f.operand e)

end Frame

/-- What reading a text gives: the operators met, from the left, and the expression or the first
fault. -/
structure Reading (α : Type) where
  operators : List (Operator α)
  result : Except Fault (Expr α)

namespace Reading

variable {α : Type}

def fail (fault : Fault) : Reading α := ⟨[], .error fault⟩

def done (e : Expr α) : Reading α := ⟨[], .ok e⟩

/-- The reading after an operator has been met. -/
def meet (op : Operator α) (r : Reading α) : Reading α := { r with operators := op :: r.operators }

end Reading

namespace Reader

variable {α : Type}

/-- A place in a text.  The frames of the parentheses around it come from the inside. -/
inductive State (α : Type)
  /-- An operand is due. -/
  | operand (frame : Frame α) (outer : List (Frame α))
  /-- An operator, a `)` or the end is due. -/
  | operator (chain : Grouping α) (outer : List (Frame α))

variable [Number α]

/-- Reads what is left of a text, which has no blanks at its start unless a `-` comes before it. -/
def run (table : Table α) : State α → List Char → Reading α
  | .operand _ _, [] => .fail .missingOperand
  | .operand frame outer, '(' :: rest =>
      run table (.operand .start (frame :: outer)) (dropBlank rest)
  | .operand frame outer, c :: rest =>
      if startsNegation (c :: rest) then run table (.operand frame.negate outer) rest
      else
        let literal := literalRun (c :: rest)
        if _ : literal = [] then .fail (.notAnOperand c)
        else match Number.read? literal with
          | none => .fail (.notANumber literal)
          | some x =>
              run table (.operator (frame.complete (.num x)) outer)
                (dropBlank ((c :: rest).drop literal.length))
  | .operator chain outer, [] => if outer.isEmpty then .done chain.toExpr else .fail .unclosed
  | .operator _ [], ')' :: rest => .fail (.trailing (')' :: rest))
  | .operator chain (frame :: outer), ')' :: rest =>
      run table (.operator (frame.complete chain.toExpr) outer) (dropBlank rest)
  | .operator chain outer, c :: rest =>
      let symbol := operatorRun (c :: rest)
      if _ : symbol = [] then .fail (.notAnOperation (c :: rest))
      else match table.get? symbol with
        | none => .fail (.unknownOperator symbol)
        | some op =>
            (run table (.operand (.after chain op) outer)
              (dropBlank ((c :: rest).drop symbol.length))).meet op
termination_by _ text => text.length
decreasing_by
  · exact Nat.lt_succ_of_le (length_dropBlank_le rest)
  · exact Nat.lt_succ_self rest.length
  · exact Nat.lt_of_le_of_lt (length_dropBlank_le _) (length_drop_lt (by assumption))
  · exact Nat.lt_succ_of_le (length_dropBlank_le rest)
  · exact Nat.lt_of_le_of_lt (length_dropBlank_le _) (length_drop_lt (by assumption))

/-- Reads a whole text. -/
def read (table : Table α) (text : List Char) : Reading α :=
  run table (.operand .start []) (dropBlank text)

end Reader

/-- The expression that a text denotes with the operators of a table, or the first fault. -/
def Expr.read {α : Type} [Number α] (table : Table α) (text : List Char) :
    Except Fault (Expr α) := (Reader.read table text).result

end InfixCalculator
