import InfixCalculator.Number
import InfixCalculator.Number.Binary.Text

/-!
# Powers of binary floating-point numbers

Powers are taken by the platform, which is handed the interchange encoding of a
number: a sign digit, the exponent and the digits after the first.  All else that
expressions need of the numbers is exact arithmetic with rounding.

* `Binary.encode`, `Binary.decode`: the interchange encoding.
* `Format.Power`: formats whose powers can be taken.
* `Single`, `Double`: the numbers of 32 and of 64 bits.
-/

namespace InfixCalculator

namespace Binary

variable {f : Format}

/-- The encoding of a number of quanta: the exponent counts the halvings until the precision is
reached. -/
def encodeQuanta (f : Format) (n : Nat) : Nat :=
  let halvings := n.log2 + 1 - f.precision
  halvings * Nat.pow 2 (f.precision - 1) + n / Nat.pow 2 halvings

/-- The exponent of infinities and of what is not a number. -/
def topExponent (f : Format) : Nat := f.top + f.quantum + 2 - f.precision

/-- The weight of the sign digit. -/
def signWeight (f : Format) : Nat := (topExponent f + 1) * Nat.pow 2 (f.precision - 1)

/-- The interchange encoding. -/
def encode : Binary f → Nat
  | .nan => topExponent f * Nat.pow 2 (f.precision - 1) + Nat.pow 2 (f.precision - 2)
  | .infinity s => s.toNat * signWeight f + topExponent f * Nat.pow 2 (f.precision - 1)
  | .finite s n _ => s.toNat * signWeight f + encodeQuanta f n

/-- The number with an interchange encoding. -/
def decode (bits : Nat) : Binary f :=
  let negative := decide (signWeight f ≤ bits)
  let magnitude := bits % signWeight f
  let exponent := magnitude / Nat.pow 2 (f.precision - 1)
  let digits := magnitude % Nat.pow 2 (f.precision - 1)
  if exponent = topExponent f then (if digits = 0 then .infinity negative else .nan)
  else if exponent = 0 then ofQuanta negative digits
  else ofQuanta negative ((Nat.pow 2 (f.precision - 1) + digits) * Nat.pow 2 (exponent - 1))

end Binary

/-- A format whose powers can be taken. -/
class Format.Power (f : Format) where
  pow : Binary f → Binary f → Binary f

instance : Format.Power .binary64 where
  pow a b :=
    .decode (Float.pow (.ofBits (.ofNat a.encode)) (.ofBits (.ofNat b.encode))).toBits.toNat

instance : Format.Power .binary32 where
  pow a b :=
    .decode (Float32.pow (.ofBits (.ofNat a.encode)) (.ofBits (.ofNat b.encode))).toBits.toNat

instance {f : Format} [f.Power] : Number (Binary f) where
  read? := Binary.read?
  text := Binary.text
  add a b := .ok (a.add b)
  sub a b := .ok (a.sub b)
  mul a b := .ok (a.mul b)
  div a b := .ok (a.div b)
  rem a b := .ok (a.rem b)
  pow a b := .ok (Format.Power.pow a b)
  neg a := .ok a.neg
  wrapAdd := Binary.add
  wrapSub := Binary.sub
  wrapMul := Binary.mul
  minusOne := .minusOne

/-- Numbers of 32 bits. -/
abbrev Single : Type := Binary .binary32

/-- Numbers of 64 bits. -/
abbrev Double : Type := Binary .binary64

end InfixCalculator
