import InfixCalculator.Expr

/-!
# The shape of simplified expressions

Simplifying takes all negations away and nothing else.  The operators that it
brings in are products, sums and differences.

* `Expr.NegFree`: an expression without negations.
* `negFree_simplify`: a simplified expression is one.
* `simplify_eq_self`: such an expression is simplified already.
* `forall_operators_simplify`: what holds of the old operators and of the ones brought in.
-/

namespace InfixCalculator.Expr

variable {α : Type}

/-! ## Expressions without negations -/

/-- No subterm is a negation. -/
def NegFree (e : Expr α) : Prop := ∀ d, neg d ∉ e.subterms

theorem negFree_num (x : α) : (num x).NegFree := by
  intro d hd
  cases List.mem_singleton.mp hd

theorem not_negFree_neg (e : Expr α) : ¬(neg e).NegFree := fun h => h e List.mem_cons_self

theorem negFree_bin {l r : Expr α} {op : Operator α} :
    (bin l op r).NegFree ↔ l.NegFree ∧ r.NegFree := by
  constructor
  · intro h
    refine ⟨fun d hd => ?_, fun d hd => ?_⟩
    · exact h d (List.mem_cons_of_mem _ (List.mem_append_left _ hd))
    · exact h d (List.mem_cons_of_mem _ (List.mem_append_right _ hd))
  · rintro ⟨hl, hr⟩ d hd
    rcases List.mem_cons.mp hd with hd | hd
    · cases hd
    · rcases List.mem_append.mp hd with hd | hd
      · exact hl d hd
      · exact hr d hd

variable [Number α]

theorem negFree_negation {s : Expr α} (h : s.NegFree) :
    (bin (num Number.minusOne) tightMul s).NegFree := negFree_bin.mpr ⟨negFree_num _, h⟩

/-- **Simplifying takes all negations away.** -/
theorem negFree_simplify (e : Expr α) : e.simplify.NegFree := by
  fun_induction simplify e with
  | case1 x => exact negFree_num x
  | case2 e ih => exact negFree_negation ih
  | case3 l op r _ ihl ihr => exact negFree_bin.mpr ⟨ihl, ihr⟩
  | case4 l op r _ _ ihl ihr => exact negFree_bin.mpr ⟨ihl, ihr⟩
  | case5 l op r _ _ ihl ihr => exact negFree_bin.mpr ⟨ihl, negFree_negation ihr⟩
  | case6 l op r _ ihl ihr => exact negFree_bin.mpr ⟨ihl, ihr⟩

/-- Where there are no negations, simplifying leaves everything, operators included. -/
theorem simplify_eq_self {e : Expr α} (h : e.NegFree) : e.simplify = e := by
  fun_induction simplify e with
  | case1 x => rfl
  | case2 e _ => exact absurd h (not_negFree_neg e)
  | case3 l op r _ _ _ => exact absurd (negFree_bin.mp h).2 (not_negFree_neg r)
  | case4 l op r _ _ _ _ => exact absurd (negFree_bin.mp h).2 (not_negFree_neg r)
  | case5 l op r _ _ _ _ => exact absurd (negFree_bin.mp h).2 (not_negFree_neg r)
  | case6 l op r _ ihl ihr =>
    obtain ⟨hl, hr⟩ := negFree_bin.mp h
    rw [ihl hl, ihr hr]

/-! ## Operators -/

theorem symbol_tightMul : (tightMul : Operator α).symbol = ['*'] := rfl

theorem symbol_subLike (op : Operator α) : (subLike op).symbol = ['-'] := rfl

theorem symbol_addLike (op : Operator α) : (addLike op).symbol = ['+'] := rfl

/-- What holds of the operators of an expression and of the ones that are brought in holds of all
operators of the simplified expression. -/
theorem forall_operators_simplify {P : Operator α → Prop} (hmul : P tightMul)
    (hsub : ∀ op, P (subLike op)) (hadd : ∀ op, P (addLike op)) {e : Expr α}
    (h : ∀ op ∈ e.operators, P op) : ∀ op ∈ e.simplify.operators, P op := by
  fun_induction simplify e with
  | case1 x => exact h
  | case2 e ih => exact List.forall_mem_cons.mpr ⟨hmul, ih h⟩
  | case3 l op r _ ihl ihr =>
    obtain ⟨hl, _, hr⟩ := forall_operators_bin.mp h
    exact forall_operators_bin.mpr ⟨ihl hl, hsub op, ihr hr⟩
  | case4 l op r _ _ ihl ihr =>
    obtain ⟨hl, _, hr⟩ := forall_operators_bin.mp h
    exact forall_operators_bin.mpr ⟨ihl hl, hadd op, ihr hr⟩
  | case5 l op r _ _ ihl ihr =>
    obtain ⟨hl, hop, hr⟩ := forall_operators_bin.mp h
    exact forall_operators_bin.mpr ⟨ihl hl, hop, List.forall_mem_cons.mpr ⟨hmul, ihr hr⟩⟩
  | case6 l op r _ ihl ihr =>
    obtain ⟨hl, hop, hr⟩ := forall_operators_bin.mp h
    exact forall_operators_bin.mpr ⟨ihl hl, hop, ihr hr⟩

end InfixCalculator.Expr
