import InfixCalculator.Proofs.Simplification.Rounds
import InfixCalculator.Proofs.Wrapping

/-!
# Simplified expressions under wrapping arithmetic

Simplifying puts checked operators in the place of wrapping ones.  A sum that
wraps becomes a difference that is refused, so a value may be lost, but none is
replaced by another one.  In the text only the symbols stay, and a text that is
read again wraps as before.

* `Expr.Rewritten`: the nodes that stand for a sum or difference with a negation.
* `Settles`: an expression has a value, or fails first at such a node.
* `Settles.bin`, `Settles.rewritten`: how the parts of a node settle it.
* `settles_simplify`: where an expression has a value, the simplified one settles it.
* `eval_rebind_simplify`: with the operators of the table it has the value.
* `simplify_wrapping`: simplifying never gives a wrong number.
-/

namespace InfixCalculator

variable {width : Nat}

theorem Signed.exact_cases (fault : ArithmeticFault) (z : Int) :
    exact fault z = .ok (wrap z : Signed width) ∨
      ∃ error, (exact fault z : Except Error (Signed width)) = .error error ∧
        error.kind = .arithmetic := by
  cases h : (exact fault z : Except Error (Signed width)) with
  | ok x => exact Or.inl (congrArg Except.ok (wrap_eq (exact_eq_ok_iff.mp h)).symm)
  | error error => exact Or.inr ⟨error, rfl, kind_of_exact h⟩

namespace Expr

/-! ## Wrapping operators -/

theorem get?_wrapping_add : (Table.wrapping (Signed width)).get? ['+'] =
    some ⟨['+'], BinaryFunction.apply .wrapAdd, 10, .left⟩ := by
  rw [Table.wrapping, Table.get?, Table.operators_withSums]
  rfl

theorem get?_wrapping_sub : (Table.wrapping (Signed width)).get? ['-'] =
    some ⟨['-'], BinaryFunction.apply .wrapSub, 10, .left⟩ := by
  rw [Table.wrapping, Table.get?, Table.operators_withSums]
  rfl

theorem get?_wrapping_mul : (Table.wrapping (Signed width)).get? ['*'] =
    some ⟨['*'], BinaryFunction.apply .wrapMul, 20, .left⟩ := by
  rw [Table.wrapping, Table.get?, Table.operators_withSums]
  rfl

/-- A sum with a negation wraps to what the difference wraps to. -/
theorem wrap_of_wrapping_add {op : Operator (Signed width)}
    (h : (Table.wrapping (Signed width)).get? op.symbol = some op) (hsymbol : op.symbol = ['+'])
    {x y z v : Signed width} (hneg : Number.neg y = .ok z) (happly : op.apply x z = .ok v) :
    Signed.wrap (x.val - y.val) = v := by
  rw [hsymbol, get?_wrapping_add] at h
  cases h
  rw [Int.sub_eq_add_neg, ← Signed.neg_eq_ok_iff.mp hneg]
  exact Signed.wrapAdd_eq_ok_iff.mp happly

/-- A difference with a negation wraps to what the sum wraps to. -/
theorem wrap_of_wrapping_sub {op : Operator (Signed width)}
    (h : (Table.wrapping (Signed width)).get? op.symbol = some op) (hsymbol : op.symbol = ['-'])
    {x y z v : Signed width} (hneg : Number.neg y = .ok z) (happly : op.apply x z = .ok v) :
    Signed.wrap (x.val + y.val) = v := by
  rw [hsymbol, get?_wrapping_sub] at h
  cases h
  rw [← Int.sub_neg, ← Signed.neg_eq_ok_iff.mp hneg]
  exact Signed.wrapSub_eq_ok_iff.mp happly

/-! ## Values that are lost -/

/-- The node is what a sum or difference with a negation at its right was rewritten to. -/
def Rewritten (e n : Expr (Signed width)) : Prop :=
  ∃ l op r, bin l op (neg r) ∈ e.subterms ∧ (op.symbol = ['+'] ∨ op.symbol = ['-']) ∧
    n = (bin l op (neg r)).simplify

/-- The first failure is a rewritten node, whose own operation fails with an error of arithmetic. -/
def FailsAtRewrite (e : Expr (Signed width))
    (failure : Option (Place (Signed width) × Expr (Signed width))) : Prop :=
  ∃ place n error, failure = some (place, n) ∧ n.FailsItself error ∧
    error.kind = .arithmetic ∧ e.Rewritten n

theorem FailsAtRewrite.or {e : Expr (Signed width)}
    {failure : Option (Place (Signed width) × Expr (Signed width))}
    (h : FailsAtRewrite e failure)
    (other : Option (Place (Signed width) × Expr (Signed width))) :
    FailsAtRewrite e (failure.or other) := by
  obtain ⟨place, n, error, rfl, hrest⟩ := h
  exact ⟨place, n, error, rfl, hrest⟩

/-- `s` has the value `v`, or its first failure is a node that was rewritten in `e`. -/
def Settles (e s : Expr (Signed width)) (v : Signed width) : Prop :=
  s.eval = .ok v ∨ ∀ place, FailsAtRewrite e (s.firstFailure? place)

theorem Settles.bin {e l r : Expr (Signed width)} {op : Operator (Signed width)}
    {x y v : Signed width} (hl : Settles e l x) (hr : Settles e r y)
    (hop : op.apply x y = .ok v ∨ e.Rewritten (.bin l op r) ∧
      ∃ error, op.apply x y = .error error ∧ error.kind = .arithmetic) :
    Settles e (.bin l op r) v := by
  rcases hl with hx | hl
  · have hnonel : l.firstFailure? (.leftOf op) = none := firstFailure?_eq_none_iff.mpr ⟨x, hx⟩
    rcases hr with hy | hr
    · have hnoner : r.firstFailure? (.rightOf op) = none := firstFailure?_eq_none_iff.mpr ⟨y, hy⟩
      rcases hop with happly | ⟨hrewritten, error, happly, hkind⟩
      · exact Or.inl (eval_bin_eq_ok_iff.mpr ⟨x, y, hx, hy, happly⟩)
      · have hfails : FailsItself (.bin l op r) error := .bin hx hy happly
        refine Or.inr fun place => ⟨place, .bin l op r, error, ?_, hfails, hkind, hrewritten⟩
        rw [firstFailure?_bin, hnonel, hnoner]
        exact ownFailure?_of_error hfails.eval_eq place
    · refine Or.inr fun place => ?_
      rw [firstFailure?_bin, hnonel, Option.none_or]
      exact (hr _).or _
  · refine Or.inr fun place => ?_
    rw [firstFailure?_bin]
    exact ((hl _).or _).or _

theorem Settles.negation {e s : Expr (Signed width)} {x v : Signed width} (h : Settles e s x)
    (hneg : Number.neg x = .ok v) :
    Settles e (.bin (num Number.minusOne) tightMul s) v :=
  Settles.bin (Or.inl rfl) h (Or.inl (Signed.mul_minusOne_eq_ok_iff.mpr hneg))

/-- A rewritten node settles the value that its checked operation wraps to. -/
theorem Settles.rewritten {e l r : Expr (Signed width)} {op op' : Operator (Signed width)}
    (hmem : .bin l op (.neg r) ∈ e.subterms) (hsymbol : op.symbol = ['+'] ∨ op.symbol = ['-'])
    (hsimplify : (Expr.bin l op (.neg r)).simplify = .bin l.simplify op' r.simplify)
    {x y v : Signed width} (hl : Settles e l.simplify x) (hr : Settles e r.simplify y)
    {fault : ArithmeticFault} {z : Int} (happly : op'.apply x y = Signed.exact fault z)
    (hwrap : Signed.wrap z = v) : Settles e (.bin l.simplify op' r.simplify) v := by
  refine hl.bin hr ?_
  rw [happly, ← hwrap]
  refine (Signed.exact_cases fault z).imp_right ?_
  intro herror
  exact ⟨⟨l, op, r, hmem, hsymbol, hsimplify.symm⟩, herror⟩

theorem subterms_bin_subset {l r : Expr (Signed width)} {op : Operator (Signed width)}
    {terms : List (Expr (Signed width))} :
    (bin l op r).subterms ⊆ terms ↔
      bin l op r ∈ terms ∧ l.subterms ⊆ terms ∧ r.subterms ⊆ terms := by
  rw [subterms, List.cons_subset, List.append_subset]

/-- **The simplified expression settles the value**: it has the value, or the first operation that
fails is one that was rewritten. -/
theorem settles_simplify {e d : Expr (Signed width)} {v : Signed width}
    (hsub : d.subterms ⊆ e.subterms) (hb : (Table.wrapping (Signed width)).Binds d.operators)
    (hv : d.eval = .ok v) : Settles e d.simplify v := by
  fun_induction simplify d generalizing v with
  | case1 x => exact Or.inl hv
  | case2 d ih =>
    obtain ⟨_, hsub⟩ := List.cons_subset.mp hsub
    obtain ⟨x, hx, hneg⟩ := eval_neg_eq_ok_iff.mp hv
    exact (ih hsub hb hx).negation hneg
  | case3 l op r hsymbol ihl ihr =>
    obtain ⟨hmem, hsubl, hsubr⟩ := subterms_bin_subset.mp hsub
    obtain ⟨_, hsubr⟩ := List.cons_subset.mp hsubr
    obtain ⟨hbl, ⟨hget, _⟩, hbr⟩ := Table.binds_bin.mp hb
    obtain ⟨x, y, z, hx, hy, hneg, happly⟩ := eval_binNeg_eq_ok_iff.mp hv
    have hsimplify : (bin l op (neg r)).simplify = bin l.simplify (subLike op) r.simplify := by
      rw [simplify, if_pos hsymbol]
    exact .rewritten hmem (Or.inl hsymbol) hsimplify (ihl hsubl hbl hx) (ihr hsubr hbr hy) rfl
      (wrap_of_wrapping_add hget hsymbol hneg happly)
  | case4 l op r hadd hsymbol ihl ihr =>
    obtain ⟨hmem, hsubl, hsubr⟩ := subterms_bin_subset.mp hsub
    obtain ⟨_, hsubr⟩ := List.cons_subset.mp hsubr
    obtain ⟨hbl, ⟨hget, _⟩, hbr⟩ := Table.binds_bin.mp hb
    obtain ⟨x, y, z, hx, hy, hneg, happly⟩ := eval_binNeg_eq_ok_iff.mp hv
    have hsimplify : (bin l op (neg r)).simplify = bin l.simplify (addLike op) r.simplify := by
      rw [simplify, if_neg hadd, if_pos hsymbol]
    exact .rewritten hmem (Or.inr hsymbol) hsimplify (ihl hsubl hbl hx) (ihr hsubr hbr hy) rfl
      (wrap_of_wrapping_sub hget hsymbol hneg happly)
  | case5 l op r _ _ ihl ihr =>
    obtain ⟨_, hsubl, hsubr⟩ := subterms_bin_subset.mp hsub
    obtain ⟨_, hsubr⟩ := List.cons_subset.mp hsubr
    obtain ⟨hbl, _, hbr⟩ := Table.binds_bin.mp hb
    obtain ⟨x, y, z, hx, hy, hneg, happly⟩ := eval_binNeg_eq_ok_iff.mp hv
    exact (ihl hsubl hbl hx).bin ((ihr hsubr hbr hy).negation hneg) (Or.inl happly)
  | case6 l op r _ ihl ihr =>
    obtain ⟨_, hsubl, hsubr⟩ := subterms_bin_subset.mp hsub
    obtain ⟨hbl, _, hbr⟩ := Table.binds_bin.mp hb
    obtain ⟨x, y, hx, hy, happly⟩ := eval_bin_eq_ok_iff.mp hv
    exact (ihl hsubl hbl hx).bin (ihr hsubr hbr hy) (Or.inl happly)

/-! ## Reading again -/

theorem eval_rebind_negation {s : Expr (Signed width)} {x v : Signed width}
    (hx : (s.rebind (.wrapping _)).eval = .ok x) (hneg : Number.neg x = .ok v) :
    ((bin (num Number.minusOne) tightMul s).rebind (.wrapping _)).eval = .ok v := by
  have hmul : Signed.wrap (Signed.minusOne.val * x.val) = v :=
    Signed.wrap_eq (Signed.mul_eq_ok_iff.mp (Signed.mul_minusOne_eq_ok_iff.mpr hneg))
  rw [rebind, symbol_tightMul, get?_wrapping_mul]
  exact eval_bin_eq_ok_iff.mpr ⟨_, x, rfl, hx, Signed.wrapMul_eq_ok_iff.mpr hmul⟩

/-- **With the operators of the table the simplified expression has the value**, for these wrap
again where the checked ones fail. -/
theorem eval_rebind_simplify {e : Expr (Signed width)} {v : Signed width}
    (hb : (Table.wrapping (Signed width)).Binds e.operators) (hv : e.eval = .ok v) :
    (e.simplify.rebind (.wrapping _)).eval = .ok v := by
  fun_induction simplify e generalizing v with
  | case1 x => exact hv
  | case2 e ih =>
    obtain ⟨x, hx, hneg⟩ := eval_neg_eq_ok_iff.mp hv
    exact eval_rebind_negation (ih hb hx) hneg
  | case3 l op r hsymbol ihl ihr =>
    obtain ⟨hbl, ⟨hget, _⟩, hbr⟩ := Table.binds_bin.mp hb
    obtain ⟨x, y, z, hx, hy, hneg, happly⟩ := eval_binNeg_eq_ok_iff.mp hv
    have hsub := wrap_of_wrapping_add hget hsymbol hneg happly
    rw [rebind, symbol_subLike, get?_wrapping_sub]
    exact eval_bin_eq_ok_iff.mpr
      ⟨x, y, ihl hbl hx, ihr hbr hy, Signed.wrapSub_eq_ok_iff.mpr hsub⟩
  | case4 l op r _ hsymbol ihl ihr =>
    obtain ⟨hbl, ⟨hget, _⟩, hbr⟩ := Table.binds_bin.mp hb
    obtain ⟨x, y, z, hx, hy, hneg, happly⟩ := eval_binNeg_eq_ok_iff.mp hv
    have hadd := wrap_of_wrapping_sub hget hsymbol hneg happly
    rw [rebind, symbol_addLike, get?_wrapping_add]
    exact eval_bin_eq_ok_iff.mpr
      ⟨x, y, ihl hbl hx, ihr hbr hy, Signed.wrapAdd_eq_ok_iff.mpr hadd⟩
  | case5 l op r _ _ ihl ihr =>
    obtain ⟨hbl, ⟨hget, _⟩, hbr⟩ := Table.binds_bin.mp hb
    obtain ⟨x, y, z, hx, hy, hneg, happly⟩ := eval_binNeg_eq_ok_iff.mp hv
    rw [rebind, hget]
    exact eval_bin_eq_ok_iff.mpr
      ⟨x, z, ihl hbl hx, eval_rebind_negation (ihr hbr hy) hneg, happly⟩
  | case6 l op r _ ihl ihr =>
    obtain ⟨hbl, ⟨hget, _⟩, hbr⟩ := Table.binds_bin.mp hb
    obtain ⟨x, y, hx, hy, happly⟩ := eval_bin_eq_ok_iff.mp hv
    rw [rebind, hget]
    exact eval_bin_eq_ok_iff.mpr ⟨x, y, ihl hbl hx, ihr hbr hy, happly⟩

theorem read_render_simplify {e : Expr (Signed width)}
    (hb : (Table.wrapping (Signed width)).Binds e.operators) :
    Expr.read (.wrapping _) e.simplify.render = .ok (e.simplify.rebind (.wrapping _)) := by
  refine read_render_of_legible (fun x _ => legible_signed x) ?_
  refine forall_operators_simplify (P := fun op => Usable op.symbol ∧
    ((Table.wrapping (Signed width)).get? op.symbol).isSome = true) ?_ ?_ ?_ hb.usable
  · rw [symbol_tightMul, get?_wrapping_mul]
    exact ⟨by decide, rfl⟩
  · intro op
    rw [symbol_subLike, get?_wrapping_sub]
    exact ⟨by decide, rfl⟩
  · intro op
    rw [symbol_addLike, get?_wrapping_add]
    exact ⟨by decide, rfl⟩

/-- **Simplifying never gives a wrong number under wrapping arithmetic.**  Where an expression has a
value, the simplified one has it, too, or its first failure is an error of arithmetic at a sum or
difference that was rewritten; and its text, read again, has the value in any case. -/
theorem simplify_wrapping {text : List Char} {e : Expr (Signed width)} {v : Signed width}
    (h : Expr.read (.wrapping (Signed width)) text = .ok e) (hv : e.eval = .ok v) :
    (e.simplify.eval = .ok v ∨
        ∃ error place n, e.simplify.eval = .error error ∧ error.kind = .arithmetic ∧
          e.simplify.firstFailure? .root = some (place, n) ∧ n.FailsItself error ∧
          e.Rewritten n) ∧
      ∃ e', Expr.read (.wrapping (Signed width)) e.simplify.render = .ok e' ∧
        e'.eval = .ok v := by
  have hb := binds_of_read h
  refine ⟨?_, e.simplify.rebind (.wrapping _), read_render_simplify hb, eval_rebind_simplify hb hv⟩
  rcases settles_simplify (List.Subset.refl e.subterms) hb hv with hok | hfails
  · exact Or.inl hok
  · obtain ⟨place, n, error, hfirst, hitself, hkind, hrewritten⟩ := hfails .root
    obtain ⟨error', hn, heval⟩ := eval_of_firstFailure? hfirst
    rw [hitself.eval_eq] at hn
    cases hn
    exact Or.inr ⟨error, place, n, heval, hkind, hfirst, hitself, hrewritten⟩

/-- The half of `-128 + -(1)`, which wraps to `127`, while `-128 - 1` is refused. -/
theorem simplify_wrapping_half :
    ∃ e v, Expr.read (.wrapping (Signed 8)) "(-128 + -(1)) / 2".toList = .ok e ∧
      e.eval = .ok v ∧ v.val = 63 ∧
      (∃ error place n, e.simplify.eval = .error error ∧ error.kind = .arithmetic ∧
        e.simplify.firstFailure? .root = some (place, n) ∧ n.FailsItself error ∧
        e.Rewritten n) ∧
      ∃ e', Expr.read (.wrapping (Signed 8)) e.simplify.render = .ok e' ∧ e'.eval = .ok v := by
  have hread : (Expr.read (.wrapping (Signed 8)) "(-128 + -(1)) / 2".toList).toOption.map
      (fun e => (e.eval.toOption.map Signed.val, e.simplify.fails)) = some (some 63, true) := by
    decide +kernel
  obtain ⟨e, he, hvalue⟩ := exists_ok_of_map hread
  obtain ⟨hvalue, hfails⟩ := Prod.mk.inj hvalue
  obtain ⟨v, hv, hval⟩ := exists_ok_of_map hvalue
  obtain ⟨hsettles, hreread⟩ := simplify_wrapping he hv
  refine ⟨e, v, he, hv, hval, hsettles.resolve_left ?_, hreread⟩
  obtain ⟨error, herror⟩ := fails_eq_true_iff.mp hfails
  exact eval_ne_ok herror v

end Expr

end InfixCalculator
