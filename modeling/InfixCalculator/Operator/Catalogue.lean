import InfixCalculator.Number
import InfixCalculator.Number.Signed
import InfixCalculator.Number.Binary.Power
import InfixCalculator.Operator.Table

/-!
# Ready-made operators

* `Table.arithmetic`: `+ - * / % ^` with checked arithmetic.
* `Table.wrapping`: the same symbols; `+`, `-` and `*` never fail.
* `Table.trapping`, `Table.bitwise`: small tables for integers.
* `Table.extremes`: the larger and the smaller of two floating-point numbers.
* `BinaryFunction`: functions to choose from when operators are defined one by one.
-/

namespace InfixCalculator

/-- Functions that an operator can be bound to. -/
inductive BinaryFunction
  | add
  | sub
  | mul
  | div
  | rem
  | pow
  | wrapAdd
  | wrapSub
  | wrapMul
  /-- The first argument. -/
  | first
  /-- The second argument. -/
  | second
  /-- Always fails, with a label and both arguments as message. -/
  | fail (kind : ErrorKind) (label : String)
deriving DecidableEq, Repr

/-- The function itself. -/
def BinaryFunction.apply {α : Type} [Number α] : BinaryFunction → α → α → Except Error α
  | .add => Number.add
  | .sub => Number.sub
  | .mul => Number.mul
  | .div => Number.div
  | .rem => Number.rem
  | .pow => Number.pow
  | .wrapAdd => fun a b => .ok (Number.wrapAdd a b)
  | .wrapSub => fun a b => .ok (Number.wrapSub a b)
  | .wrapMul => fun a b => .ok (Number.wrapMul a b)
  | .first => fun a _ => .ok a
  | .second => fun _ b => .ok b
  | .fail kind label => fun a b =>
      .error ⟨kind, label ++ " " ++ Number.string a ++ " " ++ Number.string b⟩

namespace Table

/-- Sums bind weakest, then products, then powers, which associate to the right. -/
def withSums {α : Type} [Number α] (add sub mul : α → α → Except Error α) : Table α :=
  ofList [
    ⟨['+'], add, 10, .left⟩,
    ⟨['-'], sub, 10, .left⟩,
    ⟨['*'], mul, 20, .left⟩,
    ⟨['/'], Number.div, 20, .left⟩,
    ⟨['%'], Number.rem, 20, .left⟩,
    ⟨['^'], Number.pow, 30, .right⟩]

theorem operators_withSums {α : Type} [Number α] {add sub mul : α → α → Except Error α} :
    (withSums add sub mul).operators =
      [⟨['+'], add, 10, .left⟩, ⟨['-'], sub, 10, .left⟩, ⟨['*'], mul, 20, .left⟩,
        ⟨['/'], Number.div, 20, .left⟩, ⟨['%'], Number.rem, 20, .left⟩,
        ⟨['^'], Number.pow, 30, .right⟩] := by
  apply operators_ofList
  show [['+'], ['-'], ['*'], ['/'], ['%'], ['^']].Nodup
  decide

/-- Arithmetic that reports every failure. -/
def arithmetic (α : Type) [Number α] : Table α := withSums Number.add Number.sub Number.mul

/-- Arithmetic whose sums, differences and products never fail. -/
def wrapping (α : Type) [Number α] : Table α :=
  withSums (BinaryFunction.apply .wrapAdd) (BinaryFunction.apply .wrapSub)
    (BinaryFunction.apply .wrapMul)

/-- Addition that fails and addition that wraps. -/
def trapping (α : Type) [Number α] : Table α :=
  ofList [
    ⟨['+'], Number.add, 0, .left⟩,
    ⟨['+', '%'], BinaryFunction.apply .wrapAdd, 0, .left⟩]

/-- Disjunction and conjunction of binary digits. -/
def bitwise (width : Nat) : Table (Signed width) :=
  ofList [
    ⟨['|'], fun a b => .ok (a.disj b), 0, .left⟩,
    ⟨['&'], fun a b => .ok (a.conj b), 1, .left⟩]

/-- The larger and the smaller of two numbers. -/
def extremes (f : Format) : Table (Binary f) :=
  ofList [
    ⟨"max".toList, fun a b => .ok (a.max b), 0, .left⟩,
    ⟨"min".toList, fun a b => .ok (a.min b), 1, .left⟩]

end Table

end InfixCalculator
