import InfixCalculator.Number
import InfixCalculator.Text.Decimal

/-!
# Signed integers of a width

The integers that `width` binary digits hold in two's complement.  Checked
arithmetic computes the exact result and refuses it if it does not fit; wrapping
arithmetic takes the one number that fits and is congruent to it.

* `Signed.ofInt?`: the exact result, if it fits.
* `Signed.wrap`: the congruent number that fits.
* `Signed.power?`: a power, computed only if it is small enough to matter.
* `ArithmeticFault`: why an operation is refused.
-/

namespace InfixCalculator

/-- Why arithmetic on integers of a width is refused. -/
inductive ArithmeticFault
  /-- The result does not fit. -/
  | overflow (sign : Char) (a b : Int)
  /-- The negated number does not fit. -/
  | negationOverflow (a : Int)
  | divisionByZero (sign : Char) (a b : Int)
  | negativeExponent (a b : Int)
  /-- The exponent needs more than 32 binary digits. -/
  | largeExponent (a b : Int)
deriving DecidableEq, Repr

namespace ArithmeticFault

/-- Two numbers with a sign between them. -/
def operation (sign : Char) (a b : Int) : String :=
  String.ofList (intText a ++ sign :: intText b)

/-- The fault in words. -/
def message : ArithmeticFault → String
  | .overflow sign a b => "overflow in " ++ operation sign a b
  | .negationOverflow a => "overflow in -(" ++ String.ofList (intText a) ++ ")"
  | .divisionByZero sign a b => "division by zero in " ++ operation sign a b
  | .negativeExponent a b => "negative exponent in " ++ operation '^' a b
  | .largeExponent a b => "exponent too large in " ++ operation '^' a b

/-- A fault of arithmetic is an error of arithmetic. -/
def toError (f : ArithmeticFault) : Error := .arithmetic f.message

end ArithmeticFault

/-- The integers from `-bound width` on and below `bound width` fit. -/
def Signed.bound (width : Nat) : Nat := Nat.pow 2 (width - 1)

/-- An integer that fits into a width. -/
@[ext]
structure Signed (width : Nat) where
  val : Int
  le_val : -(Signed.bound width : Int) ≤ val
  val_lt : val < (Signed.bound width : Int)
deriving DecidableEq

namespace Signed

variable {width : Nat}

theorem bound_pos (width : Nat) : 0 < bound width := Nat.two_pow_pos _

/-- The number with an exact value, if it fits. -/
def ofInt? (z : Int) : Option (Signed width) :=
  if h : -(bound width : Int) ≤ z ∧ z < (bound width : Int) then some ⟨z, h.1, h.2⟩ else none

/-- The number that fits and is congruent to an exact value modulo twice the bound. -/
def wrap (z : Int) : Signed width where
  val := z.bmod (2 * bound width)
  le_val := by
    have h := @Int.le_bmod z (2 * bound width) (by have := bound_pos width; omega)
    omega
  val_lt := by
    have h := @Int.bmod_lt z (2 * bound width) (by have := bound_pos width; omega)
    omega

theorem ofInt?_eq_some_iff {z : Int} {x : Signed width} : ofInt? z = some x ↔ x.val = z := by
  unfold ofInt?
  split
  · simp only [Option.some.injEq]
    constructor
    · rintro rfl
      rfl
    · rintro rfl
      rfl
  · rename_i h
    simp only [reduceCtorEq, false_iff]
    rintro rfl
    exact h ⟨x.le_val, x.val_lt⟩

@[simp] theorem ofInt?_val (x : Signed width) : ofInt? x.val = some x :=
  ofInt?_eq_some_iff.mpr rfl

/-- The exact value as a result, or the fault if it does not fit. -/
def exact (fault : ArithmeticFault) (z : Int) : Except Error (Signed width) :=
  match ofInt? z with
  | some x => .ok x
  | none => .error fault.toError

def add (a b : Signed width) : Except Error (Signed width) :=
  exact (.overflow '+' a.val b.val) (a.val + b.val)

def sub (a b : Signed width) : Except Error (Signed width) :=
  exact (.overflow '-' a.val b.val) (a.val - b.val)

def mul (a b : Signed width) : Except Error (Signed width) :=
  exact (.overflow '*' a.val b.val) (a.val * b.val)

/-- The quotient, rounded toward zero. -/
def div (a b : Signed width) : Except Error (Signed width) :=
  if b.val = 0 then .error (ArithmeticFault.divisionByZero '/' a.val b.val).toError
  else exact (.overflow '/' a.val b.val) (a.val.tdiv b.val)

/-- The remainder, with the sign of the dividend.  It belongs to a quotient and is refused where
the quotient does not fit. -/
def rem (a b : Signed width) : Except Error (Signed width) :=
  if b.val = 0 then .error (ArithmeticFault.divisionByZero '%' a.val b.val).toError
  else if (ofInt? (a.val.tdiv b.val) : Option (Signed width)).isNone then
    .error (ArithmeticFault.overflow '%' a.val b.val).toError
  else exact (.overflow '%' a.val b.val) (a.val.tmod b.val)

def neg (a : Signed width) : Except Error (Signed width) :=
  exact (.negationOverflow a.val) (-a.val)

/-- The power of a base, if it fits.  Beyond the width no power of a base other than `0`, `1` and
`-1` fits, and the powers of these repeat. -/
def power? (base : Int) (exponent : Nat) : Option (Signed width) :=
  if exponent ≤ width then ofInt? (Int.pow base exponent)
  else if base.natAbs ≤ 1 then ofInt? (if exponent % 2 = 0 then base * base else base)
  else none

/-- The largest exponent of a power. -/
def maxExponent : Nat := Nat.pow 2 32 - 1

def pow (a b : Signed width) : Except Error (Signed width) :=
  if b.val < 0 then .error (ArithmeticFault.negativeExponent a.val b.val).toError
  else if (maxExponent : Int) < b.val then
    .error (ArithmeticFault.largeExponent a.val b.val).toError
  else match power? a.val b.val.toNat with
    | some x => .ok x
    | none => .error (ArithmeticFault.overflow '^' a.val b.val).toError

def minusOne : Signed width where
  val := -1
  le_val := by
    have := bound_pos width
    omega
  val_lt := by omega

/-- The conjunction of the binary digits. -/
def conj (a b : Signed width) : Signed width :=
  wrap (BitVec.ofInt width a.val &&& BitVec.ofInt width b.val).toInt

/-- The disjunction of the binary digits. -/
def disj (a b : Signed width) : Signed width :=
  wrap (BitVec.ofInt width a.val ||| BitVec.ofInt width b.val).toInt

instance : Number (Signed width) where
  read? text := (readInt? text).bind ofInt?
  text x := intText x.val
  add := add
  sub := sub
  mul := mul
  div := div
  rem := rem
  pow := pow
  neg := neg
  wrapAdd a b := wrap (a.val + b.val)
  wrapSub a b := wrap (a.val - b.val)
  wrapMul a b := wrap (a.val * b.val)
  minusOne := minusOne

/-- What is written of a number is read back. -/
theorem read?_text (x : Signed width) : Number.read? (Number.text x) = some x := by
  show (readInt? (intText x.val)).bind ofInt? = some x
  simp

end Signed

end InfixCalculator
