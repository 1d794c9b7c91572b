import InfixCalculator.Text.Blank
import InfixCalculator.Fault

/-!
# Reading from the left

The pieces that can stand at the start of a text, and a cursor that takes such
pieces away.  A cursor holds what is left of a text; it only ever gets shorter.

* `operatorRun`: the longest run without digits, blanks and `)`.
* `literalRun`: the longest run without blanks and `)`.
* `startsNegation`: a `-` that is a sign of its own and not part of a number.
* `Cursor.apply`, `Cursor.run`: one step of a cursor, and several.
* `length_dropBlank_le`, `length_drop_lt`: what taking a piece away leaves.
-/

namespace InfixCalculator

/-- May the character stand in an operator symbol? -/
def isOperatorChar (c : Char) : Bool := !c.isDigit && !isBlank c && c != ')'

/-- May the character stand in a literal? -/
def isLiteralChar (c : Char) : Bool := !isBlank c && c != ')'

/-- The operator symbol at the start of a text, empty if there is none. -/
def operatorRun (text : List Char) : List Char := text.takeWhile isOperatorChar

/-- The literal at the start of a text, empty if there is none. -/
def literalRun (text : List Char) : List Char := text.takeWhile isLiteralChar

/-- A `-` at the start negates what follows if a character follows that is no digit.  Otherwise
it belongs to a literal. -/
def startsNegation : List Char → Bool
  | '-' :: c :: _ => !c.isDigit
  | _ => false

theorem length_dropBlank_le (text : List Char) : (dropBlank text).length ≤ text.length :=
  (List.dropWhile_suffix _).length_le

theorem length_takeWhile_le (p : Char → Bool) (text : List Char) :
    (text.takeWhile p).length ≤ text.length :=
  (List.takeWhile_prefix p).length_le

/-- Taking away a run that is not empty shortens a text. -/
theorem length_drop_lt {p : Char → Bool} {text : List Char} (h : text.takeWhile p ≠ []) :
    (text.drop (text.takeWhile p).length).length < text.length := by
  have hle := length_takeWhile_le p text
  have hpos := List.length_pos_iff.mpr h
  rw [List.length_drop]
  omega

/-- What is left of a text that is read from the left. -/
structure Cursor where
  rest : List Char
deriving DecidableEq, Repr

namespace Cursor

def isEmpty (c : Cursor) : Bool := c.rest.isEmpty

def first? (c : Cursor) : Option Char := c.rest.head?

def atClosing (c : Cursor) : Bool := c.first? == some ')'

def atNegation (c : Cursor) : Bool := startsNegation c.rest

def peekOperator (c : Cursor) : List Char := operatorRun c.rest

def dropBlank (c : Cursor) : Cursor := ⟨InfixCalculator.dropBlank c.rest⟩

/-- Takes the literal at the start, which may be empty. -/
def takeLiteral (c : Cursor) : List Char × Cursor :=
  let literal := literalRun c.rest
  (literal, ⟨c.rest.drop literal.length⟩)

/-- Takes the first characters, if there are that many. -/
def take (c : Cursor) (count : Nat) : Except Fault (List Char × Cursor) :=
  if count ≤ c.rest.length then .ok (c.rest.take count, ⟨c.rest.drop count⟩)
  else .error (.shortRest count c.rest)

/-- What a cursor can be asked. -/
inductive Step
  | take (count : Nat)
  | takeLiteral
  | dropBlank
  | first
  | isEmpty
  | atClosing
  | atNegation
  | peekOperator
deriving DecidableEq, Repr

/-- What a cursor answers to a step. -/
inductive Answer
  | taken (result : Except Fault (List Char))
  | text (run : List Char)
  | char (found : Option Char)
  | truth (holds : Bool)
  | nothing

/-- The answer to a step and the cursor after it.  A step that fails leaves the cursor as it is. -/
def apply (c : Cursor) : Step → Answer × Cursor
  | .take count =>
      match c.take count with
      | .ok (taken, after) => (.taken (.ok taken), after)
      | .error fault => (.taken (.error fault), c)
  | .takeLiteral => (.text c.takeLiteral.1, c.takeLiteral.2)
  | .dropBlank => (.nothing, c.dropBlank)
  | .first => (.char c.first?, c)
  | .isEmpty => (.truth c.isEmpty, c)
  | .atClosing => (.truth c.atClosing, c)
  | .atNegation => (.truth c.atNegation, c)
  | .peekOperator => (.text c.peekOperator, c)

/-- The answers to a list of steps, each with the cursor after it. -/
def run (c : Cursor) : List Step → List (Answer × Cursor)
  | [] => []
  | s :: steps =>
      let r := c.apply s
      r :: r.2.run steps

end Cursor

end InfixCalculator
