import InfixCalculator.Expr.Reader
import InfixCalculator.Operator.Catalogue

/-!
# Calculators

A calculator evaluates texts with the operators of a table and keeps a log of
what it does: a record for every operator it meets, and one for the expression
that it has read.

* `Calculator.evaluate`: the value of a text with the log.
* `evaluate`: the value of a text with the usual arithmetic.
-/

namespace InfixCalculator

/-- An entry of the log. -/
inductive Record
  /-- An operator was met in the text. -/
  | met (symbol : List Char) (priority : Int64)
  /-- An expression was read and is about to be evaluated. -/
  | evaluating (text : List Char)
deriving DecidableEq, Repr

namespace Record

/-- How important the entry is. -/
def level : Record → String
  | .met .. => "TRACE"
  | .evaluating _ => "DEBUG"

/-- The entry in words. -/
def message : Record → String
  | .met symbol priority =>
      "operator " ++ String.ofList symbol ++ " with priority " ++
        String.ofList (intText priority.toInt)
  | .evaluating text => "evaluating " ++ String.ofList text

/-- The entry for an operator. -/
def ofOperator {α : Type} (op : Operator α) : Record := .met op.symbol op.priority

end Record

/-- A result with the log of how it came about. -/
structure Evaluation (α : Type) where
  log : List Record
  result : Except Error α

/-- A table of operators to read and evaluate texts with. -/
structure Calculator (α : Type) where
  table : Table α

namespace Calculator

variable {α : Type} [Number α]

/-- The calculator with the usual arithmetic. -/
def standard (α : Type) [Number α] : Calculator α := ⟨.arithmetic α⟩

/-- The expression of a text. -/
def parse (c : Calculator α) (text : List Char) : Except Error (Expr α) :=
  (Expr.read c.table text).mapError Fault.toError

theorem parse_eq_ok_iff {c : Calculator α} {text : List Char} {e : Expr α} :
    c.parse text = .ok e ↔ Expr.read c.table text = .ok e := by
  unfold parse
  cases Expr.read c.table text with
  | ok e' =>
    show (Except.ok e' : Except Error (Expr α)) = .ok e ↔ _
    rw [Except.ok.injEq, Except.ok.injEq]
  | error fault =>
    constructor
    · intro h
      cases h
    · intro h
      cases h

theorem parse_of_error {c : Calculator α} {text : List Char} {fault : Fault}
    (h : Expr.read c.table text = .error fault) : c.parse text = .error fault.toError := by
  rw [parse, h]
  rfl

theorem parse_eq_error_iff {c : Calculator α} {text : List Char} {message : String} :
    c.parse text = .error (.parse message) ↔
      ∃ fault, Expr.read c.table text = .error fault ∧ fault.message = message := by
  unfold parse
  cases Expr.read c.table text with
  | ok e =>
    constructor
    · intro h
      cases h
    · rintro ⟨_, h, _⟩
      cases h
  | error fault =>
    constructor
    · intro h
      cases h
      exact ⟨fault, rfl, rfl⟩
    · rintro ⟨_, h, rfl⟩
      cases h
      rfl

/-- The value of a text.  The entries of the log stay when reading or evaluation fails. -/
def evaluate (c : Calculator α) (text : List Char) : Evaluation α :=
  let reading := Reader.read c.table text
  let met := reading.operators.map Record.ofOperator
  match reading.result with
  | .error fault => ⟨met, .error fault.toError⟩
  | .ok e => ⟨met ++ [.evaluating e.render], e.eval⟩

end Calculator

/-- The value of a text with the usual arithmetic. -/
def evaluate (α : Type) [Number α] (text : List Char) : Except Error α :=
  ((Calculator.standard α).evaluate text).result

end InfixCalculator
