import InfixCalculator.Number.Binary.Format

/-!
# Binary floating-point numbers

A number of a binary format is a signed number of quanta, an infinity or not a
number; zero has a sign.  Arithmetic computes the exact result and rounds it
once.  No operation fails.

* `Binary.ofQuotient`: the number nearest to a quotient of quanta.
* `ofQuotient_of_fits`: a number of the format is rounded to itself.
* `minusOne_mul`, `add_neg`, `sub_neg`: products with `-1` and sums with
  negated numbers.
-/

namespace InfixCalculator

/-- A number of a binary format. -/
inductive Binary (f : Format)
  /-- Not a number. -/
  | nan
  | infinity (negative : Bool)
  | finite (negative : Bool) (quanta : Nat) (fits : f.Fits quanta)
deriving DecidableEq

namespace Binary

variable {f : Format}

def zero (negative : Bool) : Binary f := .finite negative 0 f.fits_zero

/-- The number nearest to a quotient of quanta, an infinity beyond the limit. -/
def ofQuotient (negative : Bool) (num den : Nat) : Binary f :=
  if h : f.round num den < f.limit then .finite negative (f.round num den) (f.fits_round h)
  else .infinity negative

/-- The number nearest to a number of quanta. -/
def ofQuanta (negative : Bool) (n : Nat) : Binary f := ofQuotient negative n 1

theorem ofQuotient_of_fits {n den : Nat} (negative : Bool) (hden : 0 < den) (h : f.Fits n) :
    (ofQuotient negative (n * den) den : Binary f) = .finite negative n h := by
  have hr := f.round_of_fits hden h.1
  unfold ofQuotient
  rw [dif_pos (by rw [hr]; exact h.2)]
  congr 1

theorem ofQuanta_of_fits {n : Nat} (negative : Bool) (h : f.Fits n) :
    (ofQuanta negative n : Binary f) = .finite negative n h := by
  have hone : (0 : Nat) < 1 := by decide
  have hq := ofQuotient_of_fits negative hone h
  rwa [Nat.mul_one] at hq

/-- The number of quanta with its sign. -/
def signedQuanta (negative : Bool) (n : Nat) : Int := if negative then -(n : Int) else n

/-- One in quanta. -/
def one (f : Format) : Nat := Nat.pow 2 f.quantum

def minusOne : Binary f := ofQuanta true (one f)

def neg : Binary f → Binary f
  | .nan => .nan
  | .infinity s => .infinity (!s)
  | .finite s n h => .finite (!s) n h

/-- The sum.  A sum that is zero is negative only if both parts are. -/
def add : Binary f → Binary f → Binary f
  | .nan, _ => .nan
  | _, .nan => .nan
  | .infinity s, .infinity t => if s = t then .infinity s else .nan
  | .infinity s, .finite .. => .infinity s
  | .finite .., .infinity t => .infinity t
  | .finite s m _, .finite t n _ =>
      let sum := signedQuanta s m + signedQuanta t n
      if sum = 0 then zero (s && t) else ofQuanta (decide (sum < 0)) sum.natAbs

def sub (a b : Binary f) : Binary f := a.add b.neg

def mul : Binary f → Binary f → Binary f
  | .nan, _ => .nan
  | _, .nan => .nan
  | .infinity s, .infinity t => .infinity (s ^^ t)
  | .infinity s, .finite t n _ => if n = 0 then .nan else .infinity (s ^^ t)
  | .finite s m _, .infinity t => if m = 0 then .nan else .infinity (s ^^ t)
  | .finite s m _, .finite t n _ => ofQuotient (s ^^ t) (m * n) (one f)

def div : Binary f → Binary f → Binary f
  | .nan, _ => .nan
  | _, .nan => .nan
  | .infinity _, .infinity _ => .nan
  | .infinity s, .finite t _ _ => .infinity (s ^^ t)
  | .finite s _ _, .infinity t => zero (s ^^ t)
  | .finite s m _, .finite t n _ =>
      if n = 0 then (if m = 0 then .nan else .infinity (s ^^ t))
      else ofQuotient (s ^^ t) (m * one f) n

/-- The remainder of the quotient that is rounded toward zero, with the sign of the dividend. -/
def rem : Binary f → Binary f → Binary f
  | .nan, _ => .nan
  | _, .nan => .nan
  | .infinity _, _ => .nan
  | .finite s m h, .infinity _ => .finite s m h
  | .finite s m _, .finite _ n _ => if n = 0 then .nan else ofQuanta s (m % n)

/-- The order of the numbers.  Not a number is below nothing and above nothing, and zeros are
equal. -/
def lt : Binary f → Binary f → Bool
  | .nan, _ => false
  | _, .nan => false
  | .infinity s, .infinity t => s && !t
  | .infinity s, .finite .. => s
  | .finite .., .infinity t => !t
  | .finite s m _, .finite t n _ => decide (signedQuanta s m < signedQuanta t n)

/-- The larger number, or the one that is a number. -/
def max (a b : Binary f) : Binary f :=
  match a, b with
  | .nan, b => b
  | a, .nan => a
  | a, b => if a.lt b then b else a

/-- The smaller number, or the one that is a number. -/
def min (a b : Binary f) : Binary f :=
  match a, b with
  | .nan, b => b
  | a, .nan => a
  | a, b => if b.lt a then b else a

/-! ## Negated operands -/

@[simp] theorem neg_neg (a : Binary f) : a.neg.neg = a := by
  cases a <;> simp [neg]

theorem add_neg (a b : Binary f) : a.add b.neg = a.sub b := rfl

theorem sub_neg (a b : Binary f) : a.sub b.neg = a.add b := by
  rw [sub, neg_neg]

theorem fits_one (f : Format) : f.Fits (one f) := by
  constructor
  · have := f.spacing_dvd (m := 1) (k := f.quantum) Nat.one_le_two_pow
    rwa [Nat.one_mul] at this
  · exact Nat.pow_lt_pow_right (by decide) (by have := f.top_pos; omega)

theorem minusOne_eq : (minusOne : Binary f) = .finite true (one f) (fits_one f) :=
  ofQuanta_of_fits true (fits_one f)

theorem minusOne_mul (a : Binary f) : minusOne.mul a = a.neg := by
  have hone : 0 < one f := Nat.two_pow_pos _
  rw [minusOne_eq]
  cases a with
  | nan => rfl
  | infinity s => simp [mul, neg, Nat.ne_of_gt hone]
  | finite s n h =>
      simp only [mul, neg, Bool.true_xor]
      rw [Nat.mul_comm, ofQuotient_of_fits _ hone h]

end Binary

end InfixCalculator
