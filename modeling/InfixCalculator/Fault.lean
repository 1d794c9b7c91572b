import InfixCalculator.Error

/-!
# Faults of a text

The ways in which a text fails to be an expression.  Every fault is an error of
reading (`Fault.toError`); its wording is `Fault.message`.
-/

namespace InfixCalculator

/-- Why a text is no expression. -/
inductive Fault
  /-- Fewer characters are left than were asked for. -/
  | shortRest (count : Nat) (rest : List Char)
  /-- The text ends where an operand is due. -/
  | missingOperand
  /-- The text has a character that starts no operand where one is due. -/
  | notAnOperand (found : Char)
  /-- The text ends inside parentheses. -/
  | unclosed
  /-- A literal is no number of the type. -/
  | notANumber (literal : List Char)
  /-- No operator symbol stands where an operator is due. -/
  | notAnOperation (rest : List Char)
  /-- A symbol has no operator in the table. -/
  | unknownOperator (symbol : List Char)
  /-- A parenthesis closes that was never opened. -/
  | trailing (rest : List Char)
deriving DecidableEq, Repr

namespace Fault

/-- The fault in words. -/
def message : Fault → String
  | .shortRest count rest =>
      "cannot consume " ++ toString count ++ " characters of '" ++ String.ofList rest ++ "'"
  | .missingOperand => "expected operand, found end of input"
  | .notAnOperand found => "expected operand, found " ++ String.ofList [found]
  | .unclosed => "expected ), found end of input"
  | .notANumber literal => "cannot parse '" ++ String.ofList literal ++ "' as number"
  | .notAnOperation rest => "expected operation, found '" ++ String.ofList rest ++ "'"
  | .unknownOperator symbol =>
      "expected operation, found unknown operator " ++ String.ofList symbol
  | .trailing rest => "unexpected '" ++ String.ofList rest ++ "' after complete expression"

/-- The words that the message begins with, whatever the text is. -/
def opening : Fault → String
  | .shortRest .. => "cannot consume "
  | .missingOperand => "expected operand, found end of input"
  | .notAnOperand _ => "expected operand, found "
  | .unclosed => "expected ), found end of input"
  | .notANumber _ => "cannot parse '"
  | .notAnOperation _ => "expected operation, found '"
  | .unknownOperator _ => "expected operation, found unknown operator "
  | .trailing _ => "unexpected '"

theorem exists_message_eq (f : Fault) : ∃ more, f.message = f.opening ++ more := by
  cases f with
  | shortRest count rest =>
    refine ⟨toString count ++ (" characters of '" ++ (String.ofList rest ++ "'")), ?_⟩
    simp only [← String.append_assoc]
    rfl
  | missingOperand => exact ⟨"", String.append_empty.symm⟩
  | notAnOperand found => exact ⟨_, rfl⟩
  | unclosed => exact ⟨"", String.append_empty.symm⟩
  | notANumber literal => exact ⟨_, String.append_assoc ..⟩
  | notAnOperation rest => exact ⟨_, String.append_assoc ..⟩
  | unknownOperator symbol => exact ⟨_, rfl⟩
  | trailing rest => exact ⟨_, String.append_assoc ..⟩

theorem opening_prefix_message (f : Fault) : f.opening.toList <+: f.message.toList := by
  obtain ⟨more, hmessage⟩ := f.exists_message_eq
  exact ⟨more.toList, by rw [hmessage, String.toList_append]⟩

/-- Of two beginnings of a message one begins with the other. -/
theorem opening_of_prefix_message {f : Fault} {start : List Char} (h : start <+: f.message.toList) :
    start <+: f.opening.toList ∨ f.opening.toList <+: start :=
  List.prefix_or_prefix_of_prefix h f.opening_prefix_message

/-- A fault of a text is an error of reading. -/
def toError (f : Fault) : Error := .parse f.message

@[simp] theorem kind_toError (f : Fault) : f.toError.kind = .parse := rfl

end Fault

end InfixCalculator
