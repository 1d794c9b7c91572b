import InfixCalculator.Number.Binary.Power
import InfixCalculator.Proofs.Exact
import InfixCalculator.Proofs.Lockstep

/-!
# Wrapping arithmetic

The tables of checked and of wrapping arithmetic have the same symbols with the
same priorities and associativities, so they read the same trees.  On integers
wrapping arithmetic has all the values of checked arithmetic.  It may still fail,
but never at a sum, a difference or a product.  For binary floating-point numbers
the two tables are one.

* `Signed.wrap_eq`: a number that fits is its own wrapped value.
* `Operator.Covered`, `Expr.Rel.eval_of_covered`: operators, and so expressions, that have
  all the values of other ones.
* `symbol_of_wrapping_error`: the wrapping operators that can fail.
* `Binary.exists_eval`: floating-point arithmetic never fails.
* `wrapping_refines_arithmetic`: wrapping arithmetic against checked arithmetic.
-/

namespace InfixCalculator

variable {α : Type}

theorem Operator.alike_refl (op : Operator α) : op.Alike op := ⟨rfl, rfl, rfl⟩

/-! ## The two tables -/

section Tables

variable [Number α] {add sub mul add' sub' mul' : α → α → Except Error α}

/-- Two tables of arithmetic are related by what relates their sums, differences and products. -/
theorem Table.forall₂_withSums {O : Operator α → Operator α → Prop} (hrefl : ∀ op, O op op)
    (hadd : O ⟨['+'], add, 10, .left⟩ ⟨['+'], add', 10, .left⟩)
    (hsub : O ⟨['-'], sub, 10, .left⟩ ⟨['-'], sub', 10, .left⟩)
    (hmul : O ⟨['*'], mul, 20, .left⟩ ⟨['*'], mul', 20, .left⟩) :
    List.Forall₂ O (withSums add sub mul).operators (withSums add' sub' mul').operators := by
  rw [operators_withSums, operators_withSums]
  exact .cons hadd (.cons hsub (.cons hmul
    (.cons (hrefl _) (.cons (hrefl _) (.cons (hrefl _) .nil)))))

/-- The calculator with wrapping arithmetic. -/
def Calculator.wrapping (α : Type) [Number α] : Calculator α := ⟨.wrapping α⟩

theorem Calculator.parse_standard_iff {text : List Char} {e : Expr α} :
    (standard α).parse text = .ok e ↔ Expr.read (.arithmetic α) text = .ok e := by
  rw [parse_eq_ok_iff, standard]

theorem Calculator.parse_wrapping_iff {text : List Char} {e : Expr α} :
    (wrapping α).parse text = .ok e ↔ Expr.read (.wrapping α) text = .ok e := by
  rw [parse_eq_ok_iff, wrapping]

theorem parse_wrapping (text : List Char) :
    (∃ error, (Calculator.standard α).parse text = .error error ∧
        (Calculator.wrapping α).parse text = .error error ∧ error.kind = .parse) ∨
      ∃ e e', (Calculator.standard α).parse text = .ok e ∧
        (Calculator.wrapping α).parse text = .ok e' ∧ e.Rel Operator.Alike e' := by
  have hoperators : List.Forall₂ Operator.Alike (Table.arithmetic α).operators
      (Table.wrapping α).operators :=
    Table.forall₂_withSums Operator.alike_refl ⟨rfl, rfl, rfl⟩ ⟨rfl, rfl, rfl⟩ ⟨rfl, rfl, rfl⟩
  have hget := rel_get? (fun _ _ h => h) hoperators
  rcases read_rel (fun _ _ h => h) (fun symbol _ => hget symbol) text with
    ⟨fault, h, h'⟩ | ⟨e, e', h, h', hrel⟩
  · have hstandard : (Calculator.standard α).parse text = .error fault.toError :=
      Calculator.parse_of_error (by rw [Calculator.standard, h])
    have hwrapping : (Calculator.wrapping α).parse text = .error fault.toError :=
      Calculator.parse_of_error (by rw [Calculator.wrapping, h'])
    exact Or.inl ⟨fault.toError, hstandard, hwrapping, fault.kind_toError⟩
  · exact Or.inr
      ⟨e, e', Calculator.parse_standard_iff.mpr h, Calculator.parse_wrapping_iff.mpr h', hrel⟩

end Tables

/-! ## Values that are kept -/

/-- An operator, and one in its place that has all its values. -/
structure Operator.Covered (op op' : Operator α) : Prop extends op.Alike op' where
  apply_eq_ok : ∀ x y v, op.apply x y = .ok v → op'.apply x y = .ok v

theorem Operator.covered_refl (op : Operator α) : op.Covered op :=
  ⟨op.alike_refl, fun _ _ _ h => h⟩

theorem Expr.Rel.eval_of_covered [Number α] {e e' : Expr α} (h : e.Rel Operator.Covered e')
    {v : α} (hv : e.eval = .ok v) : e'.eval = .ok v := by
  induction h generalizing v with
  | num x => exact hv
  | neg _ ih =>
    obtain ⟨x, hx, hneg⟩ := eval_neg_eq_ok_iff.mp hv
    exact eval_neg_eq_ok_iff.mpr ⟨x, ih hx, hneg⟩
  | bin _ hop _ ihl ihr =>
    obtain ⟨x, y, hx, hy, happly⟩ := eval_bin_eq_ok_iff.mp hv
    exact eval_bin_eq_ok_iff.mpr ⟨x, y, ihl hx, ihr hy, hop.apply_eq_ok x y v happly⟩

/-! ## Integers -/

section Integers

variable {width : Nat}

/-- A number that fits is its own wrapped value. -/
theorem Signed.wrap_eq {z : Int} {x : Signed width} (h : x.val = z) : wrap z = x := by
  have hle := x.le_val
  have hlt := x.val_lt
  refine Signed.ext ?_
  show z.bmod (2 * bound width) = x.val
  rw [h] at hle hlt ⊢
  exact Int.bmod_eq_of_le (by omega) (by omega)

theorem Signed.wrapAdd_eq_ok_iff {x y v : Signed width} :
    BinaryFunction.apply .wrapAdd x y = .ok v ↔ wrap (x.val + y.val) = v := by
  constructor
  · exact Except.ok.inj
  · rintro rfl
    rfl

theorem Signed.wrapSub_eq_ok_iff {x y v : Signed width} :
    BinaryFunction.apply .wrapSub x y = .ok v ↔ wrap (x.val - y.val) = v := by
  constructor
  · exact Except.ok.inj
  · rintro rfl
    rfl

theorem Signed.wrapMul_eq_ok_iff {x y v : Signed width} :
    BinaryFunction.apply .wrapMul x y = .ok v ↔ wrap (x.val * y.val) = v := by
  constructor
  · exact Except.ok.inj
  · rintro rfl
    rfl

theorem covered_of_read {text : List Char} {e e' : Expr (Signed width)}
    (h : Expr.read (.arithmetic (Signed width)) text = .ok e)
    (h' : Expr.read (.wrapping (Signed width)) text = .ok e') : e.Rel Operator.Covered e' := by
  have hadd : ∀ x y v : Signed width, Number.add x y = .ok v →
      BinaryFunction.apply .wrapAdd x y = .ok v := by
    intro x y v hv
    exact Signed.wrapAdd_eq_ok_iff.mpr (Signed.wrap_eq (Signed.add_eq_ok_iff.mp hv))
  have hsub : ∀ x y v : Signed width, Number.sub x y = .ok v →
      BinaryFunction.apply .wrapSub x y = .ok v := by
    intro x y v hv
    exact Signed.wrapSub_eq_ok_iff.mpr (Signed.wrap_eq (Signed.sub_eq_ok_iff.mp hv))
  have hmul : ∀ x y v : Signed width, Number.mul x y = .ok v →
      BinaryFunction.apply .wrapMul x y = .ok v := by
    intro x y v hv
    exact Signed.wrapMul_eq_ok_iff.mpr (Signed.wrap_eq (Signed.mul_eq_ok_iff.mp hv))
  have hoperators : List.Forall₂ Operator.Covered (Table.arithmetic (Signed width)).operators
      (Table.wrapping (Signed width)).operators :=
    Table.forall₂_withSums Operator.covered_refl ⟨⟨rfl, rfl, rfl⟩, hadd⟩ ⟨⟨rfl, rfl, rfl⟩, hsub⟩
      ⟨⟨rfl, rfl, rfl⟩, hmul⟩
  have hget := rel_get? (fun _ _ hop => hop.toAlike) hoperators
  rcases read_rel (fun _ _ hop => hop.toAlike) (fun symbol _ => hget symbol) text with
    ⟨fault, hfault, _⟩ | ⟨d, d', hd, hd', hrel⟩
  · rw [h] at hfault
    cases hfault
  · rw [h] at hd
    rw [h'] at hd'
    cases hd
    cases hd'
    exact hrel

/-- The wrapping operators that can fail. -/
theorem symbol_of_wrapping_error {op : Operator (Signed width)}
    (hop : op ∈ (Table.wrapping (Signed width)).operators) {x y : Signed width} {error : Error}
    (h : op.apply x y = .error error) : op.symbol ∈ [['/'], ['%'], ['^']] := by
  rw [Table.wrapping, Table.operators_withSums] at hop
  simp only [List.mem_cons, List.not_mem_nil, or_false] at hop
  rcases hop with rfl | rfl | rfl | rfl | rfl | rfl
  · cases h
  · cases h
  · cases h
  · exact List.mem_cons_self
  · exact List.mem_cons_of_mem _ List.mem_cons_self
  · exact List.mem_cons_of_mem _ (List.mem_cons_of_mem _ List.mem_cons_self)

/-- Where wrapping arithmetic fails first, there is a negation, a quotient, a remainder or a
power. -/
theorem firstFailure?_wrapping {text : List Char} {e n : Expr (Signed width)}
    {place p : Place (Signed width)} (h : Expr.read (.wrapping (Signed width)) text = .ok e)
    (hfirst : e.firstFailure? place = some (p, n)) :
    (∃ m, n = .neg m) ∨ ∃ l op r, n = .bin l op r ∧ op.symbol ∈ [['/'], ['%'], ['^']] := by
  obtain ⟨error, hfails⟩ := Expr.exists_failsItself hfirst
  cases hfails with
  | neg _ _ => exact Or.inl ⟨_, rfl⟩
  | @bin l r op x y _ _ _ happly =>
    have hmem : op ∈ e.operators :=
      Expr.mem_operators_of_mem_subterms (Expr.mem_subterms_of_firstFailure? hfirst)
    obtain ⟨hget, _⟩ := binds_of_read h op hmem
    exact Or.inr ⟨l, op, r, rfl, symbol_of_wrapping_error (Table.mem_of_get? hget) happly⟩

theorem eval_wrapping {text : List Char} {e e' : Expr (Signed width)}
    (h : Expr.read (.arithmetic (Signed width)) text = .ok e)
    (h' : Expr.read (.wrapping (Signed width)) text = .ok e') :
    (∀ v, e.eval = .ok v → e'.eval = .ok v) ∧
      ∀ error', e'.eval = .error error' →
        (∃ error, e.eval = .error error ∧ error.kind = .arithmetic) ∧
          ∃ place n, e'.firstFailure? .root = some (place, n) ∧
            ((∃ m, n = .neg m) ∨
              ∃ l op r, n = .bin l op r ∧ op.symbol ∈ [['/'], ['%'], ['^']]) := by
  have hrel := covered_of_read h h'
  refine ⟨fun v => hrel.eval_of_covered, ?_⟩
  intro error' herror'
  constructor
  · cases heval : e.eval with
    | ok v => exact absurd (hrel.eval_of_covered heval) (Expr.eval_ne_ok herror' v)
    | error error => exact ⟨error, rfl, Expr.kind_of_eval (Expr.checked_of_read h) heval⟩
  · cases hfirst : e'.firstFailure? .root with
    | none =>
      obtain ⟨v, hv⟩ := Expr.firstFailure?_eq_none_iff.mp hfirst
      exact absurd hv (Expr.eval_ne_ok herror' v)
    | some p => exact ⟨p.1, p.2, rfl, firstFailure?_wrapping h' hfirst⟩

end Integers

/-! ## Binary floating-point numbers -/

section Binary

variable {f : Format} [f.Power]

theorem wrapping_eq_arithmetic : Table.wrapping (Binary f) = Table.arithmetic (Binary f) := rfl

theorem Binary.exists_apply {op : Operator (Binary f)}
    (hop : op ∈ (Table.arithmetic (Binary f)).operators) (x y : Binary f) :
    ∃ v, op.apply x y = .ok v := by
  rw [Table.arithmetic, Table.operators_withSums] at hop
  simp only [List.mem_cons, List.not_mem_nil, or_false] at hop
  rcases hop with rfl | rfl | rfl | rfl | rfl | rfl
  · exact ⟨_, rfl⟩
  · exact ⟨_, rfl⟩
  · exact ⟨_, rfl⟩
  · exact ⟨_, rfl⟩
  · exact ⟨_, rfl⟩
  · exact ⟨_, rfl⟩

/-- Operators that never fail make expressions that never fail. -/
theorem Binary.exists_eval {e : Expr (Binary f)}
    (h : ∀ op ∈ e.operators, ∀ x y, ∃ v, op.apply x y = .ok v) : ∃ v, e.eval = .ok v := by
  induction e with
  | num x => exact ⟨x, rfl⟩
  | neg e ih =>
    obtain ⟨x, hx⟩ := ih h
    exact ⟨x.neg, Expr.eval_neg_eq_ok_iff.mpr ⟨x, hx, rfl⟩⟩
  | bin l op r ihl ihr =>
    obtain ⟨hl, hop, hr⟩ := Expr.forall_operators_bin.mp h
    obtain ⟨x, hx⟩ := ihl hl
    obtain ⟨y, hy⟩ := ihr hr
    obtain ⟨v, hv⟩ := hop x y
    exact ⟨v, Expr.eval_bin_eq_ok_iff.mpr ⟨x, y, hx, hy, hv⟩⟩

theorem eval_wrapping_binary {text : List Char} {e e' : Expr (Binary f)}
    (h : Expr.read (.arithmetic (Binary f)) text = .ok e)
    (h' : Expr.read (.wrapping (Binary f)) text = .ok e') :
    ∃ v, e.eval = .ok v ∧ e'.eval = .ok v := by
  rw [wrapping_eq_arithmetic, h] at h'
  cases h'
  obtain ⟨v, hv⟩ := Binary.exists_eval fun op hop =>
    Binary.exists_apply (Table.mem_of_get? (binds_of_read h op hop).1)
  exact ⟨v, hv, hv⟩

end Binary

/-- **Wrapping arithmetic refines checked arithmetic.**  Both refuse the same texts with the same
error and read the same trees of all others.  Over integers the wrapping tree has the value of the
checked one, and where it fails the checked one fails, too; over floating-point numbers both have
the same value. -/
theorem wrapping_refines_arithmetic :
    (∀ (α : Type) [Number α] (text : List Char),
      (∃ error, (Calculator.standard α).parse text = .error error ∧
          (Calculator.wrapping α).parse text = .error error ∧ error.kind = .parse) ∨
        ∃ e e', (Calculator.standard α).parse text = .ok e ∧
          (Calculator.wrapping α).parse text = .ok e' ∧ e.Rel Operator.Alike e') ∧
      (∀ (width : Nat) (text : List Char) (e e' : Expr (Signed width)),
        (Calculator.standard (Signed width)).parse text = .ok e →
        (Calculator.wrapping (Signed width)).parse text = .ok e' →
          (∀ v, e.eval = .ok v → e'.eval = .ok v) ∧
            ∀ error', e'.eval = .error error' →
              (∃ error, e.eval = .error error ∧ error.kind = .arithmetic) ∧
                ∃ place n, e'.firstFailure? .root = some (place, n) ∧
                  ((∃ m, n = .neg m) ∨
                    ∃ l op r, n = .bin l op r ∧ op.symbol ∈ [['/'], ['%'], ['^']])) ∧
      ∀ (f : Format) [f.Power] (text : List Char) (e e' : Expr (Binary f)),
        (Calculator.standard (Binary f)).parse text = .ok e →
        (Calculator.wrapping (Binary f)).parse text = .ok e' →
          ∃ v, e.eval = .ok v ∧ e'.eval = .ok v := by
  refine ⟨fun α _ text => parse_wrapping text, ?_, ?_⟩
  · intro width text e e' h h'
    rw [Calculator.parse_standard_iff] at h
    rw [Calculator.parse_wrapping_iff] at h'
    exact eval_wrapping h h'
  · intro f _ text e e' h h'
    rw [Calculator.parse_standard_iff] at h
    rw [Calculator.parse_wrapping_iff] at h'
    exact eval_wrapping_binary h h'

/-- A sum that wraps to the least number, which has no negation, and a quotient by zero. -/
theorem wrapping_refines_arithmetic_least :
    (∃ e e' error, (Calculator.standard (Signed 8)).parse "-(127 + 1)".toList = .ok e ∧
        (Calculator.wrapping (Signed 8)).parse "-(127 + 1)".toList = .ok e' ∧
        e'.fails = true ∧ e.eval = .error error ∧ error.kind = .arithmetic) ∧
      ∃ e e' v, (Calculator.standard Double).parse "1 / 0".toList = .ok e ∧
        (Calculator.wrapping Double).parse "1 / 0".toList = .ok e' ∧
        e.eval = .ok v ∧ e'.eval = .ok v := by
  have hfails : ((Calculator.standard (Signed 8)).parse "-(127 + 1)".toList).toOption.map
      Expr.fails = some true := by decide +kernel
  have hfails' : ((Calculator.wrapping (Signed 8)).parse "-(127 + 1)".toList).toOption.map
      Expr.fails = some true := by decide +kernel
  have hquotient : ((Calculator.standard Double).parse "1 / 0".toList).toOption.map
      Expr.fails = some false := by decide +kernel
  have hquotient' : ((Calculator.wrapping Double).parse "1 / 0".toList).toOption.map
      Expr.fails = some false := by decide +kernel
  obtain ⟨_, hintegers, hbinary⟩ := wrapping_refines_arithmetic
  constructor
  · obtain ⟨e, he, _⟩ := exists_ok_of_map hfails
    obtain ⟨e', he', hfail⟩ := exists_ok_of_map hfails'
    obtain ⟨error', herror'⟩ := Expr.fails_eq_true_iff.mp hfail
    obtain ⟨⟨error, herror, hkind⟩, _⟩ := (hintegers 8 _ e e' he he').2 error' herror'
    exact ⟨e, e', error, he, he', hfail, herror, hkind⟩
  · obtain ⟨e, he, _⟩ := exists_ok_of_map hquotient
    obtain ⟨e', he', _⟩ := exists_ok_of_map hquotient'
    obtain ⟨v, hv, hv'⟩ := hbinary .binary64 _ e e' he he'
    exact ⟨e, e', v, he, he', hv, hv'⟩

end InfixCalculator
