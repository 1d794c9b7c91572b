import InfixCalculator.Proofs.Exact
import InfixCalculator.Proofs.Simplification.Shape

/-!
# Simplified expressions

A simplified expression computes `-1 * x` for `-x`, and `a - b` for `a + -b`.
Exact values do not notice, but integers of a width do: the least number has no
negation, while a number minus the least one may well fit.

* `exactValue?_simplify`: the exact value stays.
* `Refines`: what one expression may do where the other one fails.
* `Refines.binNeg`: an operation on a negation against one on what is negated.
* `refines_simplify`: simplifying keeps values, and gains some in one case only.
* `eval_simplify`: simplifying is sound for checked arithmetic.
-/

namespace InfixCalculator.Expr

variable {width : Nat}

/-! ## Exact values -/

theorem exactValue?_tightMul (s : Expr (Signed width)) :
    (bin (num Number.minusOne) tightMul s).exactValue? = s.exactValue?.map fun b => -b := by
  rw [exactValue?, exactValue?]
  cases s.exactValue? with
  | none => rfl
  | some b => simp [exactOperation, tightMul, Number.minusOne, Signed.minusOne]

/-- **Simplifying keeps the exact value**, whatever the operators compute. -/
theorem exactValue?_simplify (e : Expr (Signed width)) :
    e.simplify.exactValue? = e.exactValue? := by
  fun_induction simplify e with
  | case1 x => rfl
  | case2 e ih => rw [exactValue?_tightMul, exactValue?, ih]
  | case3 l op r h ihl ihr =>
    rw [exactValue?, exactValue?, exactValue?, ihl, ihr, h]
    cases l.exactValue? with
    | none => rfl
    | some a =>
      cases r.exactValue? with
      | none => rfl
      | some b => simp [exactOperation, subLike, Int.sub_eq_add_neg]
  | case4 l op r _ h ihl ihr =>
    rw [exactValue?, exactValue?, exactValue?, ihl, ihr, h]
    cases l.exactValue? with
    | none => rfl
    | some a =>
      cases r.exactValue? with
      | none => rfl
      | some b => simp [exactOperation, addLike]
  | case5 l op r _ _ ihl ihr =>
    show (l.simplify.exactValue?.bind fun a =>
      (bin (num Number.minusOne) tightMul r.simplify).exactValue?.bind fun b =>
        exactOperation op.symbol a b) = _
    rw [exactValue?_tightMul, ihl, ihr]
    rfl
  | case6 l op r _ ihl ihr => rw [exactValue?, exactValue?, ihl, ihr]

/-! ## Operators -/

theorem checked_tightMul : (tightMul : Operator (Signed width)).Checked := .mul _ _

theorem checked_subLike (op : Operator (Signed width)) : (subLike op).Checked := .sub _ _

theorem checked_addLike (op : Operator (Signed width)) : (addLike op).Checked := .add _ _

theorem checked_simplify {e : Expr (Signed width)} (h : e.Checked) : e.simplify.Checked :=
  forall_operators_simplify checked_tightMul checked_subLike checked_addLike h

theorem apply_of_checked_add {op : Operator (Signed width)} (h : op.Checked)
    (hsymbol : op.symbol = ['+']) : op.apply = Number.add := by
  cases h with
  | add => rfl
  | _ => cases hsymbol

theorem apply_of_checked_sub {op : Operator (Signed width)} (h : op.Checked)
    (hsymbol : op.symbol = ['-']) : op.apply = Number.sub := by
  cases h with
  | sub => rfl
  | _ => cases hsymbol

/-! ## Values that are gained -/

/-- The subterm is the negation of the least number, right of a `+` or a `-`. -/
def NegatedLeast (failure : Option (Place (Signed width) × Expr (Signed width))) : Prop :=
  ∃ op r x, failure = some (.rightOf op, neg r) ∧ (op.symbol = ['+'] ∨ op.symbol = ['-']) ∧
    r.eval = .ok x ∧ x.val = -(Signed.bound width : Int)

theorem NegatedLeast.or {failure : Option (Place (Signed width) × Expr (Signed width))}
    (h : NegatedLeast failure) (other : Option (Place (Signed width) × Expr (Signed width))) :
    NegatedLeast (failure.or other) := by
  obtain ⟨op, r, x, rfl, hrest⟩ := h
  exact ⟨op, r, x, rfl, hrest⟩

/-- `s` has the values of `e`, and where `e` has none it has one only if the first failure of `e`
is the negation of the least number in a sum or difference. -/
structure Refines (e s : Expr (Signed width)) : Prop where
  eval_ok : ∀ v, e.eval = .ok v → s.eval = .ok v
  gained : ∀ error w, e.eval = .error error → s.eval = .ok w →
    ∀ place, NegatedLeast (e.firstFailure? place)

theorem Refines.eq_of_eval {e s : Expr (Signed width)} (h : Refines e s) {x y : Signed width}
    (hy : e.eval = .ok y) (hx : s.eval = .ok x) : x = y := by
  rw [h.eval_ok y hy] at hx
  exact (Except.ok.inj hx).symm

theorem Refines.refl (e : Expr (Signed width)) : Refines e e := by
  refine ⟨fun v h => h, ?_⟩
  intro error w herror hw
  exact absurd hw (eval_ne_ok herror w)

theorem Refines.neg {e s : Expr (Signed width)} (h : Refines e s) :
    Refines (neg e) (bin (num Number.minusOne) tightMul s) := by
  constructor
  · intro v hv
    obtain ⟨x, hx, hneg⟩ := eval_neg_eq_ok_iff.mp hv
    exact eval_bin_eq_ok_iff.mpr ⟨_, x, rfl, h.eval_ok x hx,
      Signed.mul_minusOne_eq_ok_iff.mpr hneg⟩
  · intro error w herror hw place
    obtain ⟨_, x, hone, hx, happly⟩ := eval_bin_eq_ok_iff.mp hw
    cases hone
    rw [firstFailure?_neg]
    cases hy : e.eval with
    | error error' => exact (h.gained error' x hy hx .negated).or _
    | ok y =>
      -- the product is the negation, which cannot have failed
      obtain rfl := h.eq_of_eval hy hx
      have hneg := eval_neg_eq_ok_iff.mpr ⟨x, hy, Signed.mul_minusOne_eq_ok_iff.mp happly⟩
      exact absurd hneg (eval_ne_ok herror w)

theorem Refines.bin {l l' r r' : Expr (Signed width)} (hl : Refines l l') (hr : Refines r r')
    (op : Operator (Signed width)) : Refines (bin l op r) (bin l' op r') := by
  constructor
  · intro v hv
    obtain ⟨x, y, hx, hy, happly⟩ := eval_bin_eq_ok_iff.mp hv
    exact eval_bin_eq_ok_iff.mpr ⟨x, y, hl.eval_ok x hx, hr.eval_ok y hy, happly⟩
  · intro error w herror hw place
    obtain ⟨x, y, hx, hy, happly⟩ := eval_bin_eq_ok_iff.mp hw
    rw [firstFailure?_bin]
    cases ha : l.eval with
    | error error' => exact ((hl.gained error' x ha hx (.leftOf op)).or _).or _
    | ok a =>
      have hnone : l.firstFailure? (.leftOf op) = none := firstFailure?_eq_none_iff.mpr ⟨a, ha⟩
      rw [hnone, Option.none_or]
      cases hb : r.eval with
      | error error' => exact (hr.gained error' y hb hy (.rightOf op)).or _
      | ok b =>
        obtain rfl := hl.eq_of_eval ha hx
        obtain rfl := hr.eq_of_eval hb hy
        have hbin := eval_bin_eq_ok_iff.mpr ⟨x, y, ha, hb, happly⟩
        exact absurd hbin (eval_ne_ok herror w)

/-- An operation on a negation against one on what is negated, where both agree on the numbers
that have a negation. -/
theorem Refines.binNeg {l l' r r' : Expr (Signed width)} (hl : Refines l l') (hr : Refines r r')
    {op op' : Operator (Signed width)} (hsymbol : op.symbol = ['+'] ∨ op.symbol = ['-'])
    (hop : ∀ x y z v, Number.neg y = .ok z →
      (op.apply x z = .ok v ↔ op'.apply x y = .ok v)) :
    Refines (.bin l op (.neg r)) (.bin l' op' r') := by
  constructor
  · intro v hv
    obtain ⟨x, y, z, hx, hy, hneg, happly⟩ := eval_binNeg_eq_ok_iff.mp hv
    exact eval_bin_eq_ok_iff.mpr
      ⟨x, y, hl.eval_ok x hx, hr.eval_ok y hy, (hop x y z v hneg).mp happly⟩
  · intro error w herror hw place
    obtain ⟨x, y, hx, hy, happly⟩ := eval_bin_eq_ok_iff.mp hw
    rw [firstFailure?_bin, firstFailure?_neg]
    cases ha : l.eval with
    | error error' => exact ((hl.gained error' x ha hx (.leftOf op)).or _).or _
    | ok a =>
      have hnone : l.firstFailure? (.leftOf op) = none := firstFailure?_eq_none_iff.mpr ⟨a, ha⟩
      rw [hnone, Option.none_or]
      cases hb : r.eval with
      | error error' => exact ((hr.gained error' y hb hy .negated).or _).or _
      | ok b =>
        obtain rfl := hl.eq_of_eval ha hx
        obtain rfl := hr.eq_of_eval hb hy
        have hnone : r.firstFailure? .negated = none := firstFailure?_eq_none_iff.mpr ⟨y, hb⟩
        rw [hnone, Option.none_or]
        cases hz : (Number.neg y : Except Error (Signed width)) with
        | ok z =>
          have hbin := eval_binNeg_eq_ok_iff.mpr
            ⟨x, y, z, ha, hb, hz, (hop x y z w hz).mpr happly⟩
          exact absurd hbin (eval_ne_ok herror w)
        | error error' =>
          rw [ownFailure?_of_error (eval_neg_of_neg_error hb hz)]
          exact ⟨op, r, y, rfl, hsymbol, hb, Signed.eq_of_neg_error hz⟩

theorem refines_simplify {e : Expr (Signed width)} (h : e.Checked) : Refines e e.simplify := by
  fun_induction simplify e with
  | case1 x => exact .refl _
  | case2 e ih => exact (ih h).neg
  | case3 l op r hsymbol ihl ihr =>
    obtain ⟨hl, hop, hr⟩ := checked_bin.mp h
    refine (ihl hl).binNeg (ihr hr) (Or.inl hsymbol) ?_
    intro x y z v hz
    rw [apply_of_checked_add hop hsymbol, Signed.add_eq_ok_iff, Signed.neg_eq_ok_iff.mp hz]
    exact Signed.sub_eq_ok_iff.symm
  | case4 l op r _ hsymbol ihl ihr =>
    obtain ⟨hl, hop, hr⟩ := checked_bin.mp h
    refine (ihl hl).binNeg (ihr hr) (Or.inr hsymbol) ?_
    intro x y z v hz
    rw [apply_of_checked_sub hop hsymbol, Signed.sub_eq_ok_iff, Signed.neg_eq_ok_iff.mp hz,
      Int.sub_neg]
    exact Signed.add_eq_ok_iff.symm
  | case5 l op r _ _ ihl ihr =>
    obtain ⟨hl, _, hr⟩ := checked_bin.mp h
    exact (ihl hl).bin (ihr hr).neg op
  | case6 l op r _ ihl ihr =>
    obtain ⟨hl, _, hr⟩ := checked_bin.mp h
    exact (ihl hl).bin (ihr hr) op

/-- **Simplifying is sound for checked arithmetic.**  Values stay, values that are gained are
exact, they are gained only where the negation of the least number in a sum or difference was the
first to fail, and all errors are errors of arithmetic. -/
theorem eval_simplify {text : List Char} {e : Expr (Signed width)}
    (h : Expr.read (.arithmetic (Signed width)) text = .ok e) :
    (∀ v, e.eval = .ok v → e.simplify.eval = .ok v) ∧
      (∀ w, e.simplify.eval = .ok w →
        e.exactValue? = some w.val ∧ ∀ v, e.eval = .ok v → v = w) ∧
      (∀ error w, e.eval = .error error → e.simplify.eval = .ok w →
        ∃ op r x, e.firstFailure? .root = some (.rightOf op, .neg r) ∧
          (op.symbol = ['+'] ∨ op.symbol = ['-']) ∧ r.eval = .ok x ∧
          x.val = -(Signed.bound width : Int)) ∧
      ∀ error error', e.eval = .error error → e.simplify.eval = .error error' →
        error.kind = .arithmetic ∧ error'.kind = .arithmetic := by
  have hchecked := checked_of_read h
  have hrefines := refines_simplify hchecked
  have hsimplify := checked_simplify hchecked
  refine ⟨hrefines.eval_ok, ?_, ?_, ?_⟩
  · intro w hw
    refine ⟨?_, ?_⟩
    · rw [← exactValue?_simplify]
      exact exactValue?_of_eval hsimplify hw
    · intro v hv
      exact (hrefines.eq_of_eval hv hw).symm
  · intro error w herror hw
    exact hrefines.gained error w herror hw .root
  · intro error error' herror herror'
    exact ⟨kind_of_eval hchecked herror, kind_of_eval hsimplify herror'⟩

/-- `-1 + -(-128)` over 8 binary digits. -/
def leastNegated : Expr (Signed 8) :=
  bin (num .minusOne) ⟨['+'], Number.add, 10, .left⟩ (neg (num ⟨-128, by decide, by decide⟩))

theorem eval_simplify_leastNegated :
    Expr.read (.arithmetic (Signed 8)) "-1 + -(-128)".toList = .ok leastNegated ∧
      leastNegated.fails = true ∧ leastNegated.exactValue? = some 127 ∧
      ∃ op r x, leastNegated.firstFailure? .root = some (.rightOf op, .neg r) ∧
        (op.symbol = ['+'] ∨ op.symbol = ['-']) ∧ r.eval = .ok x ∧ x.val = -128 := by
  have hread : Expr.read (.arithmetic (Signed 8)) "-1 + -(-128)".toList = .ok leastNegated := by
    with_unfolding_all rfl
  have hsimplify : leastNegated.simplify.eval = .ok ⟨127, by decide, by decide⟩ := rfl
  have hfails : leastNegated.fails = true := by decide
  obtain ⟨error, herror⟩ := fails_eq_true_iff.mp hfails
  obtain ⟨_, hexact, hgained, _⟩ := eval_simplify hread
  exact ⟨hread, hfails, (hexact _ hsimplify).1, hgained error _ herror hsimplify⟩

end InfixCalculator.Expr
