/-!
# Binary formats

The finite values of a binary format are multiples of its smallest positive
value, the quantum.  A number of quanta fits if it needs no more binary digits
than the precision, zeros at the end apart, and lies below the limit.

* `Format.round`: the fitting number nearest to a quotient, of two the even one.
* `fits_round`: the result fits unless it reaches the limit.
* `round_of_fits`: a number that fits is rounded to itself.
-/

namespace InfixCalculator

/-- A binary format: numbers of `precision` binary digits, multiples of `2 ^ -quantum` and below
`2 ^ top`. -/
structure Format where
  precision : Nat
  quantum : Nat
  top : Nat
  precision_pos : 0 < precision
  top_pos : 0 < top

/-- The nearest whole number to a quotient.  Of two equally near the even one is taken. -/
def divNearest (num den : Nat) : Nat :=
  let q := num / den
  let r := num % den
  if 2 * r < den then q else if 2 * r = den then q + q % 2 else q + 1

theorem divNearest_mul (m : Nat) {den : Nat} (h : 0 < den) : divNearest (m * den) den = m := by
  simp [divNearest, Nat.mul_div_cancel m h, h]

theorem divNearest_le (num den : Nat) : divNearest num den ≤ num / den + 1 := by
  simp only [divNearest]
  split
  · omega
  · split <;> omega

namespace Format

/-- Numbers of 24 binary digits, in 32 bits. -/
def binary32 : Format := ⟨24, 149, 128, by decide, by decide⟩

/-- Numbers of 53 binary digits, in 64 bits. -/
def binary64 : Format := ⟨53, 1074, 1024, by decide, by decide⟩

/-- Finite values have less quanta. -/
def limit (f : Format) : Nat := Nat.pow 2 (f.top + f.quantum)

/-- The distance between neighbours of a number of quanta. -/
def spacing (f : Format) (n : Nat) : Nat := Nat.pow 2 (n.log2 + 1 - f.precision)

/-- A number of quanta that is a value of the format. -/
def Fits (f : Format) (n : Nat) : Prop := f.spacing n ∣ n ∧ n < f.limit

instance (f : Format) (n : Nat) : Decidable (f.Fits n) :=
  inferInstanceAs (Decidable (_ ∧ _))

/-- The number of quanta that is nearest to a quotient. -/
def round (f : Format) (num den : Nat) : Nat :=
  let unit := f.spacing (num / den)
  divNearest num (den * unit) * unit

theorem spacing_pos (f : Format) (n : Nat) : 0 < f.spacing n := Nat.two_pow_pos _

theorem limit_pos (f : Format) : 0 < f.limit := Nat.two_pow_pos _

theorem fits_zero (f : Format) : f.Fits 0 := ⟨Nat.dvd_zero _, f.limit_pos⟩

/-- A multiple of a power of two by a number of at most `precision` digits keeps its spacing. -/
theorem spacing_dvd (f : Format) {m k : Nat} (h : m ≤ Nat.pow 2 f.precision) :
    f.spacing (m * Nat.pow 2 k) ∣ m * Nat.pow 2 k := by
  rw [Nat.pow_eq] at *
  have hp := f.precision_pos
  rcases Nat.eq_zero_or_pos m with rfl | hm
  · simp
  rcases Nat.lt_or_eq_of_le h with hlt | rfl
  · have hne : m * 2 ^ k ≠ 0 := Nat.ne_of_gt (Nat.mul_pos hm (Nat.two_pow_pos k))
    have hlog : (m * 2 ^ k).log2 < f.precision + k := by
      rw [Nat.log2_lt hne, Nat.pow_add]
      exact Nat.mul_lt_mul_of_pos_right hlt (Nat.two_pow_pos k)
    exact Nat.dvd_trans (Nat.pow_dvd_pow 2 (by omega)) (Nat.dvd_mul_left _ _)
  · rw [← Nat.pow_add, spacing, Nat.log2_two_pow]
    exact Nat.pow_dvd_pow 2 (by omega)

theorem fits_round (f : Format) {num den : Nat} (h : f.round num den < f.limit) :
    f.Fits (f.round num den) := by
  refine ⟨?_, h⟩
  apply spacing_dvd
  refine Nat.le_trans (divNearest_le _ _) ?_
  rw [← Nat.div_div_eq_div_mul]
  apply Nat.succ_le_of_lt
  rw [spacing, Nat.pow_eq, Nat.pow_eq, Nat.div_lt_iff_lt_mul (Nat.two_pow_pos _), ← Nat.pow_add]
  refine Nat.lt_of_lt_of_le Nat.lt_log2_self (Nat.pow_le_pow_right (by decide) (by omega))

theorem round_of_fits (f : Format) {n den : Nat} (hden : 0 < den) (h : f.spacing n ∣ n) :
    f.round (n * den) den = n := by
  obtain ⟨m, hm⟩ := h
  simp only [round, Nat.mul_div_cancel n hden]
  have hn : n * den = m * (den * f.spacing n) := by
    rw [Nat.mul_comm den, ← Nat.mul_assoc, Nat.mul_comm m, ← hm]
  rw [hn, divNearest_mul m (Nat.mul_pos hden (f.spacing_pos n)), Nat.mul_comm, ← hm]

end Format

end InfixCalculator
