/-!
# Errors

An error says whether a text could not be read or whether arithmetic failed, and
carries a message.  Operators are given by the user, so any message may occur.

* `Error.text`: the kind, a colon and the message.
* `Error.le`: errors of reading come first, then messages by code point.
-/

namespace InfixCalculator

/-- Text that is no expression, or arithmetic that failed. -/
inductive ErrorKind
  | parse
  | arithmetic
deriving DecidableEq, Repr

/-- The kind in words. -/
def ErrorKind.text : ErrorKind → String
  | .parse => "parse error"
  | .arithmetic => "arithmetic error"

/-- A failure with its kind and message. -/
structure Error where
  kind : ErrorKind
  message : String
deriving DecidableEq, Repr

namespace Error

/-- An error of reading. -/
def parse (message : String) : Error := ⟨.parse, message⟩

/-- An error of arithmetic. -/
def arithmetic (message : String) : Error := ⟨.arithmetic, message⟩

def isParse (e : Error) : Bool := e.kind = .parse

def isArithmetic (e : Error) : Bool := e.kind = .arithmetic

/-- The kind and the message, as shown to a reader. -/
def text (e : Error) : String := e.kind.text ++ ": " ++ e.message

/-- Errors of reading come before errors of arithmetic, and errors of one kind go by the code
points of their messages. -/
def le (a b : Error) : Bool :=
  match a.kind, b.kind with
  | .parse, .arithmetic => true
  | .arithmetic, .parse => false
  | _, _ => decide (a.message ≤ b.message)

/-- The errors in ascending order. -/
def sort (errors : List Error) : List Error := errors.mergeSort le

end Error

end InfixCalculator
