import InfixCalculator.Calculator
import InfixCalculator.Proofs.RoundTrip.Unbound
import InfixCalculator.Proofs.Simplification.Shape

/-!
# Rounds of simplifying

In a round an expression is simplified, written and read again.  Simplifying
brings in symbols and the number `-1`, and the table may bind the symbols to
anything or not at all.  Where it binds them all, one round is enough: there is
nothing left to simplify, and the text stays as it is.

* `Expr.render_rebind`: the operators of a table do not change a text.
* `Calculator.round`, `Calculator.rounds`: one round, and several in turn.
* `round_round`: a second round gives what the first one gave.
* `rounds_fixed`: rounds reach a fixed point at once.
-/

namespace InfixCalculator

variable {α : Type}

/-! ## The operators of a table -/

theorem Table.symbol_getD_get? (t : Table α) (op : Operator α) :
    ((t.get? op.symbol).getD op).symbol = op.symbol := by
  cases hget : t.get? op.symbol with
  | none => rfl
  | some op' => exact symbol_of_get? hget

namespace Expr

theorem negFree_rebind (t : Table α) {e : Expr α} (h : e.NegFree) : (e.rebind t).NegFree := by
  induction e with
  | num x => exact h
  | neg e _ => exact absurd h (not_negFree_neg e)
  | bin l op r ihl ihr =>
    obtain ⟨hl, hr⟩ := negFree_bin.mp h
    exact negFree_bin.mpr ⟨ihl hl, ihr hr⟩

variable [Number α]

theorem usable_simplify {e : Expr α} (h : ∀ op ∈ e.operators, Usable op.symbol) :
    ∀ op ∈ e.simplify.operators, Usable op.symbol := by
  refine forall_operators_simplify (P := fun op => Usable op.symbol) ?_ ?_ ?_ h
  · rw [symbol_tightMul]
    decide
  · intro op
    rw [symbol_subLike]
    decide
  · intro op
    rw [symbol_addLike]
    decide

theorem render_rebind (t : Table α) (e : Expr α) : (e.rebind t).render = e.render := by
  induction e with
  | num x => rfl
  | neg e ih => rw [rebind, render, render, ih]
  | bin l op r ihl ihr =>
    rw [rebind, render, render, ihl, ihr, Table.symbol_getD_get?]

end Expr

/-! ## Rounds -/

namespace Calculator

variable [Number α]

/-- Simplifies an expression, and reads what is written of it. -/
def round (c : Calculator α) (e : Expr α) : Except Error (Expr α) := c.parse e.simplify.render

/-- Several rounds, until one fails. -/
def rounds (c : Calculator α) : Nat → Expr α → Except Error (Expr α)
  | 0, e => .ok e
  | n + 1, e => do
      let e' ← c.round e
      c.rounds n e'

theorem rounds_succ {c : Calculator α} {e e' : Expr α} (h : c.round e = .ok e') (n : Nat) :
    c.rounds (n + 1) e = c.rounds n e' := by
  rw [rounds, h]
  rfl

theorem rounds_of_round_eq {c : Calculator α} {e : Expr α} (h : c.round e = .ok e) (n : Nat) :
    c.rounds n e = .ok e := by
  induction n with
  | zero => rfl
  | succ n ih => rw [rounds_succ h, ih]

end Calculator

section Integers

variable {width : Nat} {c : Calculator (Signed width)}

/-- A round succeeds if all symbols are bound.  Otherwise it fails at one that is not. -/
theorem round_cases {e : Expr (Signed width)} (h : ∀ op ∈ e.operators, Usable op.symbol) :
    (c.round e = .ok (e.simplify.rebind c.table) ∧
        ∀ op ∈ e.simplify.operators, op.symbol ∈ c.table.symbols) ∨
      ∃ op ∈ e.simplify.operators, op.symbol ∉ c.table.symbols ∧
        c.round e = .error (Fault.unknownOperator op.symbol).toError := by
  rcases read_render_cases c.table (Expr.usable_simplify h) with
    ⟨hread, hbound⟩ | ⟨op, hop, hread, hunbound⟩
  · exact Or.inl ⟨Calculator.parse_eq_ok_iff.mpr hread, hbound⟩
  · exact Or.inr ⟨op, hop, hunbound, Calculator.parse_of_error hread⟩

theorem eq_rebind_of_round {e e₂ : Expr (Signed width)}
    (h : ∀ op ∈ e.operators, Usable op.symbol) (hround : c.round e = .ok e₂) :
    e₂ = e.simplify.rebind c.table := by
  rcases round_cases h with ⟨hok, _⟩ | ⟨op, _, _, herror⟩
  · rw [hok] at hround
    exact (Except.ok.inj hround).symm
  · rw [herror] at hround
    cases hround

theorem render_of_round {e e₂ : Expr (Signed width)} (h : ∀ op ∈ e.operators, Usable op.symbol)
    (hround : c.round e = .ok e₂) : e₂.render = e.simplify.render := by
  rw [eq_rebind_of_round h hround, Expr.render_rebind]

theorem negFree_of_round {e e₂ : Expr (Signed width)} (h : ∀ op ∈ e.operators, Usable op.symbol)
    (hround : c.round e = .ok e₂) : e₂.NegFree := by
  rw [eq_rebind_of_round h hround]
  exact Expr.negFree_rebind c.table (Expr.negFree_simplify e)

/-- **A second round gives what the first one gave**: nothing is left to simplify, so the text is
that of the first round. -/
theorem round_round {e e₂ : Expr (Signed width)} (h : ∀ op ∈ e.operators, Usable op.symbol)
    (hround : c.round e = .ok e₂) : c.round e₂ = .ok e₂ := by
  have hsimplify : e₂.simplify = e₂ := Expr.simplify_eq_self (negFree_of_round h hround)
  calc c.round e₂ = c.parse e₂.render := by rw [Calculator.round, hsimplify]
    _ = c.round e := by rw [render_of_round h hround, Calculator.round]
    _ = .ok e₂ := hround

/-- **Rounds reach a fixed point at once.**  The simplified expression has no negations, and
expressions without negations are simplified to themselves.  A round succeeds exactly if the table
binds all symbols, and every later round returns its expression. -/
theorem rounds_fixed {text : List Char} {e : Expr (Signed width)} (h : c.parse text = .ok e) :
    e.simplify.NegFree ∧ (∀ d : Expr (Signed width), d.NegFree → d.simplify = d) ∧
      e.simplify.simplify = e.simplify ∧
      ((∃ e₂, c.round e = .ok e₂) ↔
        ∀ op ∈ e.simplify.operators, op.symbol ∈ c.table.symbols) ∧
      (∀ error, c.round e = .error error → error.kind = .parse ∧
        ∃ op ∈ e.simplify.operators, op.symbol ∉ c.table.symbols ∧
          error = (Fault.unknownOperator op.symbol).toError) ∧
      ∀ e₂, c.round e = .ok e₂ →
        e₂.render = e.simplify.render ∧ e₂.NegFree ∧ ∀ n, c.rounds (n + 1) e = .ok e₂ := by
  have husable : ∀ op ∈ e.operators, Usable op.symbol := fun op hop =>
    (binds_of_read (Calculator.parse_eq_ok_iff.mp h) op hop).2
  have hfree := Expr.negFree_simplify e
  refine ⟨hfree, fun d => Expr.simplify_eq_self, Expr.simplify_eq_self hfree, ?_, ?_, ?_⟩
  · rcases round_cases husable with ⟨hok, hbound⟩ | ⟨op, hop, hunbound, herror⟩
    · exact iff_of_true ⟨_, hok⟩ hbound
    · refine iff_of_false ?_ fun hbound => hunbound (hbound op hop)
      rintro ⟨e₂, hok⟩
      rw [herror] at hok
      cases hok
  · intro error herror
    rcases round_cases husable with ⟨hok, _⟩ | ⟨op, hop, hunbound, hunknown⟩
    · rw [hok] at herror
      cases herror
    · rw [hunknown] at herror
      cases herror
      exact ⟨rfl, op, hop, hunbound, rfl⟩
  · intro e₂ hround
    refine ⟨render_of_round husable hround, negFree_of_round husable hround, ?_⟩
    intro n
    rw [Calculator.rounds_succ hround,
      Calculator.rounds_of_round_eq (round_round husable hround)]

/-- A calculator without operators. -/
def bare : Calculator (Signed 8) := ⟨.empty⟩

/-- Three negations, one of them after a `-`, and a negation in a calculator without products. -/
theorem rounds_fixed_negations :
    (∃ e e₂, (Calculator.standard (Signed 8)).parse "-(1) - -(-(2))".toList = .ok e ∧
        e₂.render = "((-1 * 1) + (-1 * 2))".toList ∧
        ∀ n, (Calculator.standard (Signed 8)).rounds (n + 1) e = .ok e₂) ∧
      ∃ e error, bare.parse "-(3)".toList = .ok e ∧ bare.round e = .error error ∧
        error.kind = .parse := by
  constructor
  · have hparse : ((Calculator.standard (Signed 8)).parse "-(1) - -(-(2))".toList).toOption.map
        (fun e => (e.simplify.render, e.simplify.operators.map Operator.symbol)) =
          some ("((-1 * 1) + (-1 * 2))".toList, [['*'], ['+'], ['*']]) := by
      decide +kernel
    obtain ⟨e, he, hsimplify⟩ := exists_ok_of_map hparse
    obtain ⟨hrender, hsymbols⟩ := Prod.mk.inj hsimplify
    obtain ⟨_, _, _, hiff, _, hfixed⟩ := rounds_fixed he
    have hbound : ∀ symbol ∈ [['*'], ['+'], ['*']],
        symbol ∈ (Calculator.standard (Signed 8)).table.symbols := by decide
    obtain ⟨e₂, hround⟩ := hiff.mpr fun op hop =>
      hbound _ (hsymbols ▸ List.mem_map_of_mem hop)
    obtain ⟨hrender₂, _, hrounds⟩ := hfixed e₂ hround
    exact ⟨e, e₂, he, hrender₂.trans hrender, hrounds⟩
  · have hparse : bare.parse "-(3)".toList = .ok (.neg (.num ⟨3, by decide, by decide⟩)) := by
      with_unfolding_all rfl
    obtain ⟨_, _, _, hiff, herror, _⟩ := rounds_fixed hparse
    cases hround : bare.round (.neg (.num ⟨3, by decide, by decide⟩)) with
    | ok e₂ =>
      have hbound := hiff.mp ⟨e₂, hround⟩ Expr.tightMul List.mem_cons_self
      exact absurd hbound (by decide)
    | error error => exact ⟨_, error, hparse, hround, (herror error hround).1⟩

end Integers

end InfixCalculator
