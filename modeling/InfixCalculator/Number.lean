import InfixCalculator.Error

/-!
# Number types

What an expression needs of the numbers it is about: a reader and a printer,
arithmetic that reports its failures, and addition, subtraction and
multiplication that never fail.
-/

namespace InfixCalculator

/-- The numbers of an expression. -/
class Number (α : Type) where
  /-- The number that a literal denotes, if it denotes one. -/
  read? : List Char → Option α
  /-- The text of a number. -/
  text : α → List Char
  add : α → α → Except Error α
  sub : α → α → Except Error α
  mul : α → α → Except Error α
  div : α → α → Except Error α
  rem : α → α → Except Error α
  pow : α → α → Except Error α
  neg : α → Except Error α
  /-- Addition that never fails. -/
  wrapAdd : α → α → α
  /-- Subtraction that never fails. -/
  wrapSub : α → α → α
  /-- Multiplication that never fails. -/
  wrapMul : α → α → α
  /-- The number `-1`. -/
  minusOne : α

/-- The text of a number as a string. -/
def Number.string {α : Type} [Number α] (x : α) : String := String.ofList (Number.text x)

end InfixCalculator
