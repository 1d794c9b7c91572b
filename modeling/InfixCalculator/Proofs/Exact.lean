import Mathlib.Algebra.Ring.Int.Parity
import InfixCalculator.Operator.Catalogue
import InfixCalculator.Proofs.Failure
import InfixCalculator.Proofs.Grammar

/-!
# Exact values

Over the unbounded integers an expression has an exact value unless something
is divided by zero or raised to a negative power.  Checked arithmetic on the
integers of a width computes it or fails.

* `Signed.add_eq_ok_iff` and the like: when an operation succeeds, and with which value.
* `Signed.power?_eq`: powers are exact, whatever the exponent.
* `Operator.Checked`: the operators of the usual arithmetic, with any priority.
* `Expr.exactValue?`: the exact value of an expression.
* `exactValue?_of_eval`: a value that is computed is the exact one.
* `kind_of_eval`: an error that is met is an error of arithmetic.
-/

namespace InfixCalculator

variable {width : Nat}

/-! ## Operations -/

namespace Signed

theorem exact_eq_ok_iff {fault : ArithmeticFault} {z : Int} {x : Signed width} :
    exact fault z = .ok x ↔ x.val = z := by
  rw [← ofInt?_eq_some_iff, exact]
  cases (ofInt? z : Option (Signed width)) with
  | some y => simp
  | none => simp

theorem kind_of_exact {fault : ArithmeticFault} {z : Int} {error : Error}
    (h : (exact fault z : Except Error (Signed width)) = .error error) :
    error.kind = .arithmetic := by
  unfold exact at h
  split at h
  · cases h
  · cases h
    rfl

theorem add_eq_ok_iff {a b x : Signed width} :
    Number.add a b = .ok x ↔ x.val = a.val + b.val := exact_eq_ok_iff

theorem sub_eq_ok_iff {a b x : Signed width} :
    Number.sub a b = .ok x ↔ x.val = a.val - b.val := exact_eq_ok_iff

theorem mul_eq_ok_iff {a b x : Signed width} :
    Number.mul a b = .ok x ↔ x.val = a.val * b.val := exact_eq_ok_iff

theorem neg_eq_ok_iff {a x : Signed width} : Number.neg a = .ok x ↔ x.val = -a.val :=
  exact_eq_ok_iff

theorem mul_minusOne_eq_ok_iff {a x : Signed width} :
    Number.mul Number.minusOne a = .ok x ↔ Number.neg a = .ok x := by
  rw [mul_eq_ok_iff, neg_eq_ok_iff]
  show x.val = -1 * a.val ↔ _
  rw [Int.neg_one_mul]

theorem div_eq_ok_iff {a b x : Signed width} :
    Number.div a b = .ok x ↔ b.val ≠ 0 ∧ x.val = a.val.tdiv b.val := by
  show div a b = .ok x ↔ _
  unfold div
  split
  · rename_i hb
    simp [hb]
  · rename_i hb
    rw [exact_eq_ok_iff]
    simp [hb]

theorem rem_eq_ok_iff {a b x : Signed width} :
    Number.rem a b = .ok x ↔ b.val ≠ 0 ∧ (∃ q : Signed width, q.val = a.val.tdiv b.val) ∧
      x.val = a.val.tmod b.val := by
  have hquotient : (∃ q : Signed width, q.val = a.val.tdiv b.val) ↔
      ¬(ofInt? (a.val.tdiv b.val) : Option (Signed width)).isNone = true := by
    simp only [← ofInt?_eq_some_iff, Option.isNone_iff_eq_none, ← ne_eq,
      Option.ne_none_iff_exists']
  show rem a b = .ok x ↔ _
  unfold rem
  rw [hquotient]
  split
  · rename_i hb
    simp [hb]
  · rename_i hb
    split
    · rename_i hq
      simp [hq]
    · rename_i hq
      rw [exact_eq_ok_iff]
      simp [hb, hq]

/-- A power is exact.  Where it is not computed it is too large, or it repeats. -/
theorem power?_eq (base : Int) (exponent : Nat) :
    (power? base exponent : Option (Signed width)) = ofInt? (base ^ exponent) := by
  unfold power?
  split
  · rfl
  · rename_i hexponent
    split
    · rename_i hbase
      congr 1
      have hcases : base = 0 ∨ base = 1 ∨ base = -1 := by omega
      rcases hcases with rfl | rfl | rfl
      · rw [zero_pow (by omega)]
        simp
      · simp
      · split
        · rename_i heven
          rw [(Nat.even_iff.mpr heven).neg_one_pow]
          rfl
        · rename_i hodd
          rw [(Nat.odd_iff.mpr (by omega)).neg_one_pow]
    · rename_i hbase
      have hlarge : bound width < (base ^ exponent).natAbs := by
        rw [Int.natAbs_pow]
        calc bound width < 2 ^ exponent := Nat.pow_lt_pow_right (by decide) (by omega)
          _ ≤ base.natAbs ^ exponent := Nat.pow_le_pow_left (by omega) exponent
      symm
      unfold ofInt?
      rw [dif_neg (by omega)]

theorem pow_eq_ok_iff {a b x : Signed width} :
    Number.pow a b = .ok x ↔
      0 ≤ b.val ∧ b.val ≤ (maxExponent : Int) ∧ x.val = a.val ^ b.val.toNat := by
  show pow a b = .ok x ↔ _
  unfold pow
  split
  · rename_i hneg
    simp [hneg]
  · rename_i hneg
    split
    · rename_i hlarge
      simp [hlarge]
    · rename_i hlarge
      rw [power?_eq, ← ofInt?_eq_some_iff]
      have hb : 0 ≤ b.val ∧ b.val ≤ (maxExponent : Int) := by omega
      cases (ofInt? (a.val ^ b.val.toNat) : Option (Signed width)) with
      | some y => simp [hb]
      | none => simp

theorem kind_of_div {a b : Signed width} {error : Error} (h : div a b = .error error) :
    error.kind = .arithmetic := by
  unfold div at h
  split at h
  · cases h
    rfl
  · exact kind_of_exact h

theorem kind_of_rem {a b : Signed width} {error : Error} (h : rem a b = .error error) :
    error.kind = .arithmetic := by
  unfold rem at h
  split at h
  · cases h
    rfl
  · split at h
    · cases h
      rfl
    · exact kind_of_exact h

theorem kind_of_pow {a b : Signed width} {error : Error} (h : pow a b = .error error) :
    error.kind = .arithmetic := by
  unfold pow at h
  split at h
  · cases h
    rfl
  · split at h
    · cases h
      rfl
    · split at h
      · cases h
      · cases h
        rfl

/-- Negation fails at the least number only. -/
theorem eq_of_neg_error {a : Signed width} {error : Error} (h : Number.neg a = .error error) :
    a.val = -(bound width : Int) := by
  by_contra hne
  have hle := a.le_val
  have hlt := a.val_lt
  have hok : Number.neg a = .ok (⟨-a.val, by omega, by omega⟩ : Signed width) :=
    neg_eq_ok_iff.mpr rfl
  rw [hok] at h
  cases h

end Signed

/-! ## Checked operators -/

/-- An operator of the usual arithmetic, with any priority and associativity. -/
inductive Operator.Checked : Operator (Signed width) → Prop
  | add (p : Int64) (a : Associativity) : Checked ⟨['+'], Number.add, p, a⟩
  | sub (p : Int64) (a : Associativity) : Checked ⟨['-'], Number.sub, p, a⟩
  | mul (p : Int64) (a : Associativity) : Checked ⟨['*'], Number.mul, p, a⟩
  | div (p : Int64) (a : Associativity) : Checked ⟨['/'], Number.div, p, a⟩
  | rem (p : Int64) (a : Associativity) : Checked ⟨['%'], Number.rem, p, a⟩
  | pow (p : Int64) (a : Associativity) : Checked ⟨['^'], Number.pow, p, a⟩

theorem checked_of_mem {op : Operator (Signed width)}
    (h : op ∈ (Table.arithmetic (Signed width)).operators) : op.Checked := by
  rw [Table.arithmetic, Table.operators_withSums] at h
  simp only [List.mem_cons, List.not_mem_nil, or_false] at h
  rcases h with rfl | rfl | rfl | rfl | rfl | rfl
  · exact .add 10 .left
  · exact .sub 10 .left
  · exact .mul 20 .left
  · exact .div 20 .left
  · exact .rem 20 .left
  · exact .pow 30 .right

/-- The exact value of the operation of a symbol. -/
def exactOperation : List Char → Int → Int → Option Int
  | ['+'], a, b => some (a + b)
  | ['-'], a, b => some (a - b)
  | ['*'], a, b => some (a * b)
  | ['/'], a, b => if b = 0 then none else some (a.tdiv b)
  | ['%'], a, b => if b = 0 then none else some (a.tmod b)
  | ['^'], a, b => if b < 0 then none else some (a ^ b.toNat)
  | _, _, _ => none

theorem exactOperation_of_apply {op : Operator (Signed width)} (hop : op.Checked)
    {a b x : Signed width} (h : op.apply a b = .ok x) :
    exactOperation op.symbol a.val b.val = some x.val := by
  cases hop with
  | add => rw [Signed.add_eq_ok_iff.mp h]; rfl
  | sub => rw [Signed.sub_eq_ok_iff.mp h]; rfl
  | mul => rw [Signed.mul_eq_ok_iff.mp h]; rfl
  | div =>
    obtain ⟨hb, hx⟩ := Signed.div_eq_ok_iff.mp h
    rw [hx]
    exact if_neg hb
  | rem =>
    obtain ⟨hb, _, hx⟩ := Signed.rem_eq_ok_iff.mp h
    rw [hx]
    exact if_neg hb
  | pow =>
    obtain ⟨hb, _, hx⟩ := Signed.pow_eq_ok_iff.mp h
    rw [hx]
    exact if_neg (by omega)

theorem kind_of_apply {op : Operator (Signed width)} (hop : op.Checked) {a b : Signed width}
    {error : Error} (h : op.apply a b = .error error) : error.kind = .arithmetic := by
  cases hop with
  | add => exact Signed.kind_of_exact h
  | sub => exact Signed.kind_of_exact h
  | mul => exact Signed.kind_of_exact h
  | div => exact Signed.kind_of_div h
  | rem => exact Signed.kind_of_rem h
  | pow => exact Signed.kind_of_pow h

/-! ## Expressions -/

namespace Expr

/-- The value over the unbounded integers. -/
def exactValue? : Expr (Signed width) → Option Int
  | num x => some x.val
  | neg e => e.exactValue?.map fun a => -a
  | bin l op r =>
      l.exactValue?.bind fun a => r.exactValue?.bind fun b => exactOperation op.symbol a b

/-- All operators are those of the usual arithmetic. -/
def Checked (e : Expr (Signed width)) : Prop := ∀ op ∈ e.operators, op.Checked

theorem checked_bin {l r : Expr (Signed width)} {op : Operator (Signed width)} :
    (bin l op r).Checked ↔ l.Checked ∧ op.Checked ∧ r.Checked := forall_operators_bin

/-- **A value that is computed is the exact one.** -/
theorem exactValue?_of_eval {e : Expr (Signed width)} (he : e.Checked) {v : Signed width}
    (h : e.eval = .ok v) : e.exactValue? = some v.val := by
  induction e generalizing v with
  | num x =>
    cases h
    rfl
  | neg e ih =>
    obtain ⟨x, hx, hneg⟩ := eval_neg_eq_ok_iff.mp h
    rw [exactValue?, ih he hx, Signed.neg_eq_ok_iff.mp hneg]
    rfl
  | bin l op r ihl ihr =>
    obtain ⟨hl, hop, hr⟩ := checked_bin.mp he
    obtain ⟨x, y, hx, hy, happly⟩ := eval_bin_eq_ok_iff.mp h
    rw [exactValue?, ihl hl hx, ihr hr hy]
    exact exactOperation_of_apply hop happly

theorem kind_of_eval {e : Expr (Signed width)} (he : e.Checked) {error : Error}
    (h : e.eval = .error error) : error.kind = .arithmetic := by
  induction e with
  | num x => cases h
  | neg e ih =>
    cases hx : e.eval with
    | ok x =>
      rw [eval, hx] at h
      exact Signed.kind_of_exact h
    | error error' =>
      rw [eval_neg_of_error hx] at h
      cases h
      exact ih he hx
  | bin l op r ihl ihr =>
    obtain ⟨hl, hop, hr⟩ := checked_bin.mp he
    cases hx : l.eval with
    | ok x =>
      cases hy : r.eval with
      | ok y =>
        rw [eval, hx, hy] at h
        exact kind_of_apply hop h
      | error error' =>
        rw [eval_bin_of_right_error hx hy] at h
        cases h
        exact ihr hr hy
    | error error' =>
      rw [eval_bin_of_left_error hx] at h
      cases h
      exact ihl hl hx

theorem checked_of_read {text : List Char} {e : Expr (Signed width)}
    (h : Expr.read (.arithmetic (Signed width)) text = .ok e) : e.Checked := by
  intro op hop
  obtain ⟨hget, _⟩ := binds_of_read h op hop
  exact checked_of_mem (Table.mem_of_get? hget)

end Expr

end InfixCalculator
