import InfixCalculator.Number.Binary
import InfixCalculator.Text.Decimal

/-!
# Text of binary floating-point numbers

A number is read from decimal digits with an optional point and exponent, and
rounded once.  It is written with the fewest digits that are read back as the
same number, never with an exponent.

* `Binary.ofDecimal`: the number nearest to a decimal.
* `Binary.read?`: the number that a text denotes.
* `Binary.shortest`: the fewest digits that are read back, found from coarse to fine.
* `ofDecimal_shortest`: they are read back.
* `Binary.text`: the text of a number.
-/

namespace InfixCalculator

namespace Binary

variable {f : Format}

/-! ## Reading -/

/-- The number nearest to `digits * 10 ^ exponent`.  Where the place of the first digit alone shows
that the decimal lies beyond the limit or below half a quantum, nothing is computed. -/
def ofDecimal (negative : Bool) (digits : Nat) (exponent : Int) : Binary f :=
  if digits = 0 then zero negative
  else
    let place := (natText digits).length + exponent
    if (f.top : Int) < place then .infinity negative
    else if place < -(f.quantum : Int) then zero negative
    else if 0 ≤ exponent then ofQuanta negative (digits * Nat.pow 10 exponent.toNat * one f)
    else ofQuotient negative (digits * one f) (Nat.pow 10 (-exponent).toNat)

/-- The exponent at the end of a decimal, zero if there is none. -/
def readExponent? : List Char → Option Int
  | [] => some 0
  | c :: rest => if c = 'e' ∨ c = 'E' then readInt? rest else none

/-- Digits with an optional point and exponent, as `digits * 10 ^ exponent`.  The point needs a
digit on at least one side. -/
def readDecimal? (text : List Char) : Option (Nat × Int) :=
  let whole := text.takeWhile Char.isDigit
  match text.drop whole.length with
  | '.' :: rest =>
      let fraction := rest.takeWhile Char.isDigit
      do
        let digits ← readNat? (whole ++ fraction)
        let exponent ← readExponent? (rest.drop fraction.length)
        return (digits, exponent - fraction.length)
  | rest => do
      let digits ← readNat? whole
      let exponent ← readExponent? rest
      return (digits, exponent)

/-- The number that a text without sign denotes. -/
def readMagnitude? (negative : Bool) (text : List Char) : Option (Binary f) :=
  let word := String.ofList (text.map Char.toLower)
  if word = "inf" ∨ word = "infinity" then some (.infinity negative)
  else if word = "nan" then some .nan
  else (readDecimal? text).map fun d => ofDecimal negative d.1 d.2

/-- The number that a text denotes. -/
def read? : List Char → Option (Binary f)
  | '-' :: rest => readMagnitude? true rest
  | '+' :: rest => readMagnitude? false rest
  | text => readMagnitude? false text

/-! ## Writing -/

/-- A number of quanta in units of the last place of its exact decimal. -/
def exactDigits (f : Format) (n : Nat) : Nat := n * Nat.pow 5 f.quantum

/-- Is a decimal read as a number of quanta? -/
def readsAs (f : Format) (digits : Nat) (exponent : Int) (n : Nat) : Bool :=
  match (ofDecimal false digits exponent : Binary f) with
  | .finite false m _ => m == n
  | _ => false

/-- The coarsest decimal that is read as `n` quanta, with digits and exponent.  A decimal with
`dropped` places less than the exact one is one of its two neighbours there; of two that are read
back the nearer one is taken, and the upper one if both are equally near. -/
def shortest (f : Format) (n : Nat) : Nat → Nat × Int
  | 0 => (exactDigits f n, -(f.quantum : Int))
  | dropped + 1 =>
      let unit := Nat.pow 10 (dropped + 1)
      let exponent := (dropped + 1 : Nat) - (f.quantum : Int)
      let low := exactDigits f n / unit
      let upper := readsAs f (low + 1) exponent n
      if readsAs f low exponent n && !(upper && decide (unit ≤ 2 * (exactDigits f n % unit))) then
        (low, exponent)
      else if upper then (low + 1, exponent)
      else shortest f n dropped

/-- The exact decimal of a number of quanta is read as that number. -/
theorem ofDecimal_exactDigits (negative : Bool) {n : Nat} (h : f.Fits n) :
    (ofDecimal negative (exactDigits f n) (-(f.quantum : Int)) : Binary f) =
      .finite negative n h := by
  have h5 : 0 < 5 ^ f.quantum := Nat.pow_pos (by decide)
  have hten : Nat.pow 5 f.quantum * one f = Nat.pow 10 f.quantum := by
    simp only [one, Nat.pow_eq]
    rw [← Nat.mul_pow]
  unfold ofDecimal
  rcases Nat.eq_zero_or_pos n with rfl | hn
  · simp [exactDigits, zero]
  have hd : exactDigits f n ≠ 0 := Nat.ne_of_gt (Nat.mul_pos hn h5)
  have hplace : ¬(f.top : Int) < (natText (exactDigits f n)).length + -(f.quantum : Int) := by
    intro hlt
    have hlen : f.top + f.quantum + 1 ≤ (natText (exactDigits f n)).length := by omega
    have hten_le : 10 ^ (f.top + f.quantum) ≤ exactDigits f n := by
      rw [← Nat.not_lt, ← Nat.length_toDigits_le_iff (by decide)
        (Nat.add_pos_left f.top_pos _)]
      exact Nat.not_le.mpr hlen
    have hlt_ten : exactDigits f n < 10 ^ (f.top + f.quantum) := by
      have hstep : exactDigits f n < f.limit * 5 ^ f.quantum :=
        Nat.mul_lt_mul_of_pos_right h.2 h5
      refine Nat.lt_of_lt_of_le hstep ?_
      rw [Format.limit, show (10 : Nat) = 2 * 5 from rfl, Nat.mul_pow]
      exact Nat.mul_le_mul_left _ (Nat.pow_le_pow_right (by decide) (Nat.le_add_left _ _))
    omega
  rw [if_neg hd, if_neg hplace, if_neg (by omega)]
  split
  · have hq : f.quantum = 0 := by omega
    have hone : exactDigits f n * Nat.pow 10 (-(f.quantum : Int)).toNat * one f = n := by
      simp [exactDigits, one, hq]
    rw [hone, ofQuanta_of_fits negative h]
  · have hexp : (-(-(f.quantum : Int))).toNat = f.quantum := by omega
    rw [hexp, exactDigits, Nat.mul_assoc, hten]
    exact ofQuotient_of_fits negative (Nat.pow_pos (by decide)) h

theorem readsAs_iff {digits : Nat} {exponent : Int} {n : Nat} (h : f.Fits n) :
    readsAs f digits exponent n = true ↔
      (ofDecimal false digits exponent : Binary f) = .finite false n h := by
  unfold readsAs
  cases ofDecimal false digits exponent with
  | nan => simp
  | infinity s => simp
  | finite s m hm => cases s <;> simp

/-- What the search for the shortest decimal finds is read back. -/
theorem ofDecimal_shortest {n : Nat} (h : f.Fits n) (dropped : Nat) :
    (ofDecimal false (shortest f n dropped).1 (shortest f n dropped).2 : Binary f) =
      .finite false n h := by
  induction dropped with
  | zero => exact ofDecimal_exactDigits false h
  | succ dropped ih =>
      simp only [shortest]
      split
      · rename_i hlow
        exact (readsAs_iff h).mp (Bool.and_eq_true_iff.mp hlow).1
      · split
        · rename_i hup
          exact (readsAs_iff h).mp hup
        · exact ih

/-- Digits with the point at its place. -/
def positional (digits : Nat) (exponent : Int) : List Char :=
  if 0 ≤ exponent then natText digits ++ List.replicate exponent.toNat '0'
  else
    let places := (-exponent).toNat
    let padded := List.replicate (places + 1 - (natText digits).length) '0' ++ natText digits
    padded.take (padded.length - places) ++ '.' :: padded.drop (padded.length - places)

/-- The text of a number of quanta. -/
def quantaText (f : Format) (n : Nat) : List Char :=
  if n = 0 then ['0']
  else
    let d := shortest f n (natText (exactDigits f n)).length
    positional d.1 d.2

/-- The text of a number. -/
def text : Binary f → List Char
  | .nan => "NaN".toList
  | .infinity true => "-inf".toList
  | .infinity false => "inf".toList
  | .finite true n _ => '-' :: quantaText f n
  | .finite false n _ => quantaText f n

end Binary

end InfixCalculator
