import InfixCalculator.Proofs.Simplification.Shape
import InfixCalculator.Proofs.Wrapping

/-!
# Simplified floating-point expressions

Rounding does not look at signs.  Over binary floating-point numbers a product
with `-1` is therefore the negation, and adding or subtracting a negated number
is subtracting or adding the number, for zeros of both signs, infinities and what
is not a number as well.  An expression is simplified by these exchanges alone, so
the simplified one evaluates to the same number.

* `NegationLaws`: the exchanges, as laws of a number type.
* `Binary.negationLaws`: binary floating-point numbers satisfy them.
* `Operator.Usual`: the symbols that simplifying looks at mean what they say.
* `eval_simplify_eq`: under these laws simplifying changes no evaluation.
* `exists_eval_simplify`: floating-point expressions keep their values.
-/

namespace InfixCalculator

variable {α : Type} [Number α]

/-- Negation can be exchanged for products with `-1`, and in sums and differences for the other one
of the two, failures included. -/
structure NegationLaws (α : Type) [Number α] : Prop where
  minusOne_mul : ∀ x : α, Number.mul Number.minusOne x = Number.neg x
  add_neg : ∀ x y : α, (Number.neg y).bind (Number.add x) = Number.sub x y
  sub_neg : ∀ x y : α, (Number.neg y).bind (Number.sub x) = Number.add x y

theorem Binary.negationLaws (f : Format) [f.Power] : NegationLaws (Binary f) where
  minusOne_mul x := congrArg Except.ok (Binary.minusOne_mul x)
  add_neg x y := congrArg Except.ok (Binary.add_neg x y)
  sub_neg x y := congrArg Except.ok (Binary.sub_neg x y)

/-- A `+` is the addition of the number type, and a `-` its subtraction. -/
structure Operator.Usual (op : Operator α) : Prop where
  apply_eq_add : op.symbol = ['+'] → op.apply = Number.add
  apply_eq_sub : op.symbol = ['-'] → op.apply = Number.sub

theorem usual_of_mem {op : Operator α} (h : op ∈ (Table.arithmetic α).operators) : op.Usual := by
  rw [Table.arithmetic, Table.operators_withSums] at h
  simp only [List.mem_cons, List.not_mem_nil, or_false] at h
  rcases h with rfl | rfl | rfl | rfl | rfl | rfl
  · exact ⟨fun _ => rfl, by simp⟩
  · exact ⟨by simp, fun _ => rfl⟩
  · exact ⟨by simp, by simp⟩
  · exact ⟨by simp, by simp⟩
  · exact ⟨by simp, by simp⟩
  · exact ⟨by simp, by simp⟩

namespace Expr

/-! ## Evaluations that are the same -/

theorem eval_bin_congr {l l' r r' : Expr α} (op : Operator α) (hl : l.eval = l'.eval)
    (hr : r.eval = r'.eval) : (bin l op r).eval = (bin l' op r').eval := by
  rw [eval, eval, hl, hr]

/-- An operation on a negation and one on what is negated, if they agree after negating. -/
theorem eval_binNeg_congr {l l' r r' : Expr α} {op op' : Operator α} (hl : l'.eval = l.eval)
    (hr : r'.eval = r.eval)
    (hop : ∀ x y, (Number.neg y).bind (op.apply x) = op'.apply x y) :
    (bin l' op' r').eval = (bin l op (neg r)).eval := by
  rw [eval, eval, eval, hl, hr]
  cases l.eval with
  | error error => rfl
  | ok x =>
    cases r.eval with
    | error error => rfl
    | ok y => exact (hop x y).symm

variable (hα : NegationLaws α)
include hα

theorem eval_minusOne_mul {e s : Expr α} (h : s.eval = e.eval) :
    (bin (num Number.minusOne) tightMul s).eval = (neg e).eval := by
  rw [eval, eval, eval, h]
  cases e.eval with
  | error error => rfl
  | ok x => exact hα.minusOne_mul x

/-- **Simplifying changes no evaluation** where negation can be exchanged and `+` and `-` are the
usual operators. -/
theorem eval_simplify_eq {e : Expr α} (h : ∀ op ∈ e.operators, op.Usual) :
    e.simplify.eval = e.eval := by
  fun_induction simplify e with
  | case1 x => rfl
  | case2 e ih => exact eval_minusOne_mul hα (ih h)
  | case3 l op r hsymbol ihl ihr =>
    obtain ⟨hl, hop, hr⟩ := forall_operators_bin.mp h
    refine eval_binNeg_congr (ihl hl) (ihr hr) ?_
    intro x y
    rw [hop.apply_eq_add hsymbol]
    exact hα.add_neg x y
  | case4 l op r _ hsymbol ihl ihr =>
    obtain ⟨hl, hop, hr⟩ := forall_operators_bin.mp h
    refine eval_binNeg_congr (ihl hl) (ihr hr) ?_
    intro x y
    rw [hop.apply_eq_sub hsymbol]
    exact hα.sub_neg x y
  | case5 l op r _ _ ihl ihr =>
    obtain ⟨hl, _, hr⟩ := forall_operators_bin.mp h
    exact eval_bin_congr op (ihl hl) (eval_minusOne_mul hα (ihr hr))
  | case6 l op r _ ihl ihr =>
    obtain ⟨hl, _, hr⟩ := forall_operators_bin.mp h
    exact eval_bin_congr op (ihl hl) (ihr hr)

end Expr

/-! ## Floating-point expressions -/

namespace Binary

/-- **Floating-point expressions keep their values when they are simplified**, zeros with their
signs, and they always have one: with the usual arithmetic and with the wrapping one. -/
theorem exists_eval_simplify {f : Format} [f.Power] {text : List Char} {e : Expr (Binary f)}
    (h : Expr.read (.arithmetic (Binary f)) text = .ok e ∨
      Expr.read (.wrapping (Binary f)) text = .ok e) :
    ∃ v, e.eval = .ok v ∧ e.simplify.eval = .ok v := by
  rw [wrapping_eq_arithmetic, or_self] at h
  have hmem : ∀ op ∈ e.operators, op ∈ (Table.arithmetic (Binary f)).operators :=
    fun op hop => Table.mem_of_get? (binds_of_read h op hop).1
  obtain ⟨v, hv⟩ := exists_eval fun op hop => exists_apply (hmem op hop)
  have hsimplify := Expr.eval_simplify_eq (negationLaws f) fun op hop => usual_of_mem (hmem op hop)
  exact ⟨v, hv, hsimplify.trans hv⟩

/-- A difference of zeros, which is negative only because both are, and one of infinities. -/
theorem exists_eval_simplify_zeros :
    (∃ e, Expr.read (.arithmetic Double) "-0 - -(-0)".toList = .ok e ∧
        e.simplify.render = "(-0 + -0)".toList ∧ e.eval = .ok (zero true) ∧
        e.simplify.eval = .ok (zero true)) ∧
      ∃ e, Expr.read (.wrapping Single) "-(1e99) + -(-1e99)".toList = .ok e ∧
        e.simplify.render = "((-1 * inf) - -inf)".toList ∧ e.eval = .ok .nan ∧
        e.simplify.eval = .ok .nan := by
  constructor
  · have hread : (Expr.read (.arithmetic Double) "-0 - -(-0)".toList).toOption.map
        (fun e => (e.simplify.render, e.eval)) = some ("(-0 + -0)".toList, .ok (zero true)) := by
      decide +kernel
    obtain ⟨e, he, hvalue⟩ := exists_ok_of_map hread
    obtain ⟨hrender, heval⟩ := Prod.mk.inj hvalue
    obtain ⟨v, hv, hsimplify⟩ := exists_eval_simplify (Or.inl he)
    rw [heval] at hv
    cases hv
    exact ⟨e, he, hrender, heval, hsimplify⟩
  · have hread : (Expr.read (.wrapping Single) "-(1e99) + -(-1e99)".toList).toOption.map
        (fun e => (e.simplify.render, e.eval)) =
          some ("((-1 * inf) - -inf)".toList, .ok .nan) := by
      decide +kernel
    obtain ⟨e, he, hvalue⟩ := exists_ok_of_map hread
    obtain ⟨hrender, heval⟩ := Prod.mk.inj hvalue
    obtain ⟨v, hv, hsimplify⟩ := exists_eval_simplify (Or.inr he)
    rw [heval] at hv
    cases hv
    exact ⟨e, he, hrender, heval, hsimplify⟩

end Binary

end InfixCalculator
