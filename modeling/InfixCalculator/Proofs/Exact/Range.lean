import InfixCalculator.Proofs.Exact

/-!
# Where checked arithmetic has a value

Checked arithmetic on the integers of a width fails only where it must.  An
expression has a value exactly if every exact value in it is defined and fits,
with two exceptions: an exponent of more than 32 binary digits is refused even
for the bases whose powers repeat, and the least number has no remainder by `-1`
because it has no quotient by it.

* `Signed.fits_tdiv_iff`: all quotients fit but one.
* `Refused`: the two exceptions.
* `apply_eq_ok_iff`: when a checked operator has a value, and which.
* `Expr.InRange`: what the root of an expression needs in order to have a value.
* `exists_eval_iff`: an expression has a value exactly if all its subterms are in range.
* `eval_exact`: all that can be said of the value or the error of a text.
-/

namespace InfixCalculator

variable {width : Nat}

/-! ## Operations -/

namespace Signed

/-- The integer fits into the width. -/
def Fits (width : Nat) (z : Int) : Prop := -(bound width : Int) ≤ z ∧ z < (bound width : Int)

theorem fits_val (x : Signed width) : Fits width x.val := ⟨x.le_val, x.val_lt⟩

theorem exists_val_iff {z : Int} : (∃ x : Signed width, x.val = z) ↔ Fits width z := by
  constructor
  · rintro ⟨x, rfl⟩
    exact fits_val x
  · intro h
    exact ⟨⟨z, h.1, h.2⟩, rfl⟩

/-- All quotients fit but that of the least number by `-1`. -/
theorem fits_tdiv_iff (a b : Signed width) :
    Fits width (a.val.tdiv b.val) ↔ ¬(a.val = -(bound width : Int) ∧ b.val = -1) := by
  have hbound := bound_pos width
  have hle := a.le_val
  have hlt := a.val_lt
  constructor
  · rintro ⟨_, h⟩ ⟨hleast, hone⟩
    rw [hleast, hone, Int.tdiv_neg, Int.tdiv_one] at h
    omega
  · intro h
    by_cases hsmall : b.val.natAbs ≤ 1
    · have hcases : b.val = 0 ∨ b.val = 1 ∨ b.val = -1 := by omega
      rcases hcases with hb | hb | hb
      · rw [hb, Int.tdiv_zero]
        exact ⟨by omega, by omega⟩
      · rw [hb, Int.tdiv_one]
        exact ⟨hle, hlt⟩
      · rw [hb, Int.tdiv_neg, Int.tdiv_one]
        exact ⟨by omega, by omega⟩
    · -- beyond these divisors a quotient is at most half of its dividend
      have hhalf : (a.val.tdiv b.val).natAbs ≤ a.val.natAbs / 2 := by
        rw [Int.natAbs_tdiv]
        exact Nat.div_le_div_left (by omega) (by decide)
      exact ⟨by omega, by omega⟩

theorem maxExponent_eq : (maxExponent : Int) = 2 ^ 32 - 1 := rfl

/-- A power that fits is never reported as one that does not, whatever its exponent. -/
theorem pow_ne_overflow {a b x : Signed width} (hb : 0 ≤ b.val) (hx : x.val = a.val ^ b.val.toNat) :
    Number.pow a b ≠ .error (ArithmeticFault.overflow '^' a.val b.val).toError := by
  by_cases hlarge : b.val ≤ (maxExponent : Int)
  · rw [pow_eq_ok_iff.mpr ⟨hb, hlarge, hx⟩]
    intro h
    cases h
  · have hneg : ¬b.val < 0 := by omega
    have hpow : pow a b = .error (ArithmeticFault.largeExponent a.val b.val).toError := by
      rw [pow, if_neg hneg, if_pos (Int.not_le.mp hlarge)]
    intro h
    have hmessage : "exponent too large in " ++ ArithmeticFault.operation '^' a.val b.val =
        "overflow in " ++ ArithmeticFault.operation '^' a.val b.val :=
      congrArg Error.message (Except.error.inj (hpow.symm.trans h))
    have hhead := congrArg (fun message : String => message.toList.head?) hmessage
    have hexponent : "exponent too large in ".toList.head? = some 'e' := by decide
    have hoverflow : "overflow in ".toList.head? = some 'o' := by decide
    simp only [String.toList_append, List.head?_append, hexponent, hoverflow, Option.some_or]
      at hhead
    exact absurd hhead (by decide)

end Signed

/-- The operations that are refused although their exact value may fit. -/
def Refused (width : Nat) : List Char → Int → Int → Prop
  | ['^'], _, b => 2 ^ 32 - 1 < b
  | ['%'], a, b => a = -(Signed.bound width : Int) ∧ b = -1
  | _, _, _ => False

/-- **A checked operator** has the exact value where there is one that fits and that is not
refused. -/
theorem apply_eq_ok_iff {op : Operator (Signed width)} (hop : op.Checked) {a b v : Signed width} :
    op.apply a b = .ok v ↔
      exactOperation op.symbol a.val b.val = some v.val ∧ ¬Refused width op.symbol a.val b.val := by
  cases hop with
  | add =>
    show Number.add a b = .ok v ↔ some (a.val + b.val) = some v.val ∧ ¬False
    rw [Signed.add_eq_ok_iff]
    simp [eq_comm]
  | sub =>
    show Number.sub a b = .ok v ↔ some (a.val - b.val) = some v.val ∧ ¬False
    rw [Signed.sub_eq_ok_iff]
    simp [eq_comm]
  | mul =>
    show Number.mul a b = .ok v ↔ some (a.val * b.val) = some v.val ∧ ¬False
    rw [Signed.mul_eq_ok_iff]
    simp [eq_comm]
  | div =>
    show Number.div a b = .ok v ↔
      (if b.val = 0 then none else some (a.val.tdiv b.val)) = some v.val ∧ ¬False
    rw [Signed.div_eq_ok_iff]
    by_cases hb : b.val = 0
    · simp [hb]
    · simp [hb, eq_comm]
  | rem =>
    show Number.rem a b = .ok v ↔
      (if b.val = 0 then none else some (a.val.tmod b.val)) = some v.val ∧
        ¬(a.val = -(Signed.bound width : Int) ∧ b.val = -1)
    rw [Signed.rem_eq_ok_iff, Signed.exists_val_iff, Signed.fits_tdiv_iff]
    by_cases hb : b.val = 0
    · simp [hb]
    · simp only [hb, if_false, Option.some.injEq, eq_comm (a := v.val)]
      tauto
  | pow =>
    show Number.pow a b = .ok v ↔
      (if b.val < 0 then none else some (a.val ^ b.val.toNat)) = some v.val ∧ ¬2 ^ 32 - 1 < b.val
    rw [Signed.pow_eq_ok_iff, Signed.maxExponent_eq]
    by_cases hb : b.val < 0
    · simp [hb]
    · simp only [hb, if_false, Option.some.injEq, eq_comm (a := v.val)]
      omega

/-! ## Expressions -/

namespace Expr

/-- The exact value of an expression is defined and fits, and its own operation is not refused. -/
structure InRange (e : Expr (Signed width)) : Prop where
  fits : ∃ z, e.exactValue? = some z ∧ Signed.Fits width z
  not_refused : ∀ l op r a b, e = bin l op r → l.exactValue? = some a → r.exactValue? = some b →
    ¬Refused width op.symbol a b

theorem inRange_num (x : Signed width) : (num x).InRange := by
  refine ⟨⟨x.val, rfl, x.fits_val⟩, ?_⟩
  intro l op r a b h
  cases h

theorem inRange_neg_iff {e : Expr (Signed width)} {x : Signed width}
    (hx : e.exactValue? = some x.val) :
    (neg e).InRange ↔ ∃ v, Number.neg x = .ok v := by
  constructor
  · rintro ⟨⟨z, hz, hfits⟩, _⟩
    rw [exactValue?, hx] at hz
    cases hz
    exact ⟨⟨_, hfits.1, hfits.2⟩, Signed.neg_eq_ok_iff.mpr rfl⟩
  · rintro ⟨v, hv⟩
    refine ⟨⟨v.val, ?_, v.fits_val⟩, ?_⟩
    · rw [exactValue?, hx, Signed.neg_eq_ok_iff.mp hv]
      rfl
    · intro l op r a b h
      cases h

theorem inRange_bin_iff {l r : Expr (Signed width)} {op : Operator (Signed width)}
    (hop : op.Checked) {x y : Signed width} (hx : l.exactValue? = some x.val)
    (hy : r.exactValue? = some y.val) :
    (bin l op r).InRange ↔ ∃ v, op.apply x y = .ok v := by
  have hvalue : (bin l op r).exactValue? = exactOperation op.symbol x.val y.val := by
    rw [exactValue?, hx, hy]
    rfl
  constructor
  · rintro ⟨⟨z, hz, hfits⟩, hregular⟩
    rw [hvalue] at hz
    exact ⟨⟨z, hfits.1, hfits.2⟩,
      (apply_eq_ok_iff hop).mpr ⟨hz, hregular l op r _ _ rfl hx hy⟩⟩
  · rintro ⟨v, hv⟩
    obtain ⟨hz, hregular⟩ := (apply_eq_ok_iff hop).mp hv
    refine ⟨⟨v.val, hvalue.trans hz, v.fits_val⟩, ?_⟩
    intro l' op' r' a b h ha hb
    cases h
    rw [hx] at ha
    rw [hy] at hb
    cases ha
    cases hb
    exact hregular

/-- **An expression has a value exactly if all its subterms are in range.** -/
theorem exists_eval_iff {e : Expr (Signed width)} (he : e.Checked) :
    (∃ v, e.eval = .ok v) ↔ ∀ n ∈ e.subterms, n.InRange := by
  induction e with
  | num x =>
    rw [subterms, List.forall_mem_singleton]
    exact ⟨fun _ => inRange_num x, fun _ => ⟨x, rfl⟩⟩
  | neg e ih =>
    rw [subterms, List.forall_mem_cons, ← ih he]
    constructor
    · rintro ⟨v, hv⟩
      obtain ⟨x, hx, hneg⟩ := eval_neg_eq_ok_iff.mp hv
      exact ⟨(inRange_neg_iff (exactValue?_of_eval (e := e) he hx)).mpr ⟨v, hneg⟩, x, hx⟩
    · rintro ⟨hrange, x, hx⟩
      obtain ⟨v, hneg⟩ := (inRange_neg_iff (exactValue?_of_eval (e := e) he hx)).mp hrange
      exact ⟨v, eval_neg_eq_ok_iff.mpr ⟨x, hx, hneg⟩⟩
  | bin l op r ihl ihr =>
    obtain ⟨hl, hop, hr⟩ := checked_bin.mp he
    rw [subterms, List.forall_mem_cons, List.forall_mem_append, ← ihl hl, ← ihr hr]
    constructor
    · rintro ⟨v, hv⟩
      obtain ⟨x, y, hx, hy, happly⟩ := eval_bin_eq_ok_iff.mp hv
      have hrange := inRange_bin_iff hop (exactValue?_of_eval hl hx) (exactValue?_of_eval hr hy)
      exact ⟨hrange.mpr ⟨v, happly⟩, ⟨x, hx⟩, y, hy⟩
    · rintro ⟨hrange, ⟨x, hx⟩, y, hy⟩
      have hiff := inRange_bin_iff hop (exactValue?_of_eval hl hx) (exactValue?_of_eval hr hy)
      obtain ⟨v, happly⟩ := hiff.mp hrange
      exact ⟨v, eval_bin_eq_ok_iff.mpr ⟨x, y, hx, hy, happly⟩⟩

/-- **Checked arithmetic is exact and fails only when it must.**  A text has a value exactly if all
subterms of its expression are in range, and then it has the exact one; otherwise it has an error of
arithmetic.  A power that fits is never reported as an overflow. -/
theorem eval_exact {text : List Char} {e : Expr (Signed width)}
    (h : Expr.read (.arithmetic (Signed width)) text = .ok e) :
    ((∃ v, e.eval = .ok v) ↔ ∀ n ∈ e.subterms, n.InRange) ∧
      (∀ v, e.eval = .ok v → e.exactValue? = some v.val) ∧
      ((¬∀ n ∈ e.subterms, n.InRange) →
        ∃ error, e.eval = .error error ∧ error.kind = .arithmetic) ∧
      ∀ a b x : Signed width, 0 ≤ b.val → x.val = a.val ^ b.val.toNat →
        Number.pow a b ≠ .error (ArithmeticFault.overflow '^' a.val b.val).toError := by
  have hchecked := checked_of_read h
  have hiff := exists_eval_iff hchecked
  refine ⟨hiff, ?_, ?_, ?_⟩
  · intro v hv
    exact exactValue?_of_eval hchecked hv
  · intro hrange
    cases heval : e.eval with
    | ok v => exact absurd (hiff.mp ⟨v, heval⟩) hrange
    | error error => exact ⟨error, rfl, kind_of_eval hchecked heval⟩
  · intro a b x hb hx
    exact Signed.pow_ne_overflow hb hx

/-- `-2 ^ 7` over 8 binary digits. -/
def leastPower : Expr (Signed 8) :=
  bin (num ⟨-2, by decide, by decide⟩) ⟨['^'], Number.pow, 30, .right⟩
    (num ⟨7, by decide, by decide⟩)

/-- The remainder of `-2 ^ 7` by `-1`. -/
def leastRemainder : Expr (Signed 8) :=
  bin leastPower ⟨['%'], Number.rem, 20, .left⟩ (num .minusOne)

theorem eval_exact_least :
    Expr.read (.arithmetic (Signed 8)) "-2 ^ 7".toList = .ok leastPower ∧
      (∀ n ∈ leastPower.subterms, n.InRange) ∧ leastPower.exactValue? = some (-128) ∧
      Expr.read (.arithmetic (Signed 8)) "-2 ^ 7 % -1".toList = .ok leastRemainder ∧
      leastRemainder.exactValue? = some 0 ∧
      ∃ error, leastRemainder.eval = .error error ∧ error.kind = .arithmetic := by
  have hpower : Expr.read (.arithmetic (Signed 8)) "-2 ^ 7".toList = .ok leastPower := by
    with_unfolding_all rfl
  have hremainder : Expr.read (.arithmetic (Signed 8)) "-2 ^ 7 % -1".toList =
      .ok leastRemainder := by
    with_unfolding_all rfl
  have hvalue : leastPower.eval = .ok ⟨-128, by decide, by decide⟩ := rfl
  have hrefused : ¬∀ n ∈ leastRemainder.subterms, n.InRange := by
    intro hrange
    have hroot := hrange leastRemainder List.mem_cons_self
    exact hroot.not_refused _ _ _ (-128) (-1) rfl rfl rfl ⟨rfl, rfl⟩
  obtain ⟨hiff, hexact, _⟩ := eval_exact hpower
  obtain ⟨_, _, herror, _⟩ := eval_exact hremainder
  exact ⟨hpower, hiff.mp ⟨_, hvalue⟩, hexact _ hvalue, hremainder, rfl, herror hrefused⟩

end Expr

end InfixCalculator
