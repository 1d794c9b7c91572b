import Mathlib.Data.Int.ModEq
import InfixCalculator.Proofs.Wrapping

/-!
# Wrapping arithmetic modulo a power of two

A number wraps to the one of its residue that fits.  Sums, differences and
products of wrapped numbers are the wrapped ones of the exact numbers, so it does
not matter what has wrapped on the way to the value of an expression.  Negation is
checked and the only operation that can fail: it does so where the exact value of
its operand has the residue of the least number.

* `Signed.wrap_eq_wrap_iff`: numbers wrap to the same one if they are congruent.
* `Signed.neg_wrap_of_least`, `Signed.neg_wrap_of_not_least`: negation after wrapping.
* `exists_apply_wrap`: sums, differences and products after wrapping.
* `Expr.NegatesLeast`: some operand of a negation has the residue of the least number.
* `eval_cases`: an expression fails there, or has the wrapped exact value.
* `eval_modular`: wrapping evaluation is arithmetic modulo a power of two.
-/

namespace InfixCalculator

variable {width : Nat}

/-! ## Residues -/

/-- The exact number has the residue of the least number of a width. -/
def HasLeastResidue (width : Nat) (z : Int) : Prop :=
  z ≡ -2 ^ (width - 1) [ZMOD 2 ^ width]

namespace Signed

theorem bound_eq (width : Nat) : (bound width : Int) = 2 ^ (width - 1) := by
  rw [bound, Nat.pow_eq, Nat.cast_pow]
  rfl

theorem two_mul_bound (hwidth : 0 < width) : ((2 * bound width : Nat) : Int) = 2 ^ width := by
  rw [Nat.cast_mul, bound_eq, Nat.cast_ofNat, mul_pow_sub_one (Nat.ne_of_gt hwidth)]

/-- The least number of a width. -/
def least (width : Nat) : Signed width where
  val := -(bound width : Int)
  le_val := Int.le_refl _
  val_lt := by
    have := bound_pos width
    omega

variable (hwidth : 0 < width)
include hwidth

theorem wrap_modEq (z : Int) : (wrap z : Signed width).val ≡ z [ZMOD 2 ^ width] := by
  rw [← two_mul_bound hwidth]
  exact Int.bmod_emod

theorem wrap_eq_wrap_iff {y z : Int} :
    (wrap y : Signed width) = wrap z ↔ y ≡ z [ZMOD 2 ^ width] := by
  constructor
  · intro h
    calc y ≡ (wrap y : Signed width).val [ZMOD 2 ^ width] := (wrap_modEq hwidth y).symm
      _ ≡ z [ZMOD 2 ^ width] := h ▸ wrap_modEq hwidth z
  · intro h
    rw [← two_mul_bound hwidth] at h
    refine Signed.ext ?_
    show y.bmod (2 * bound width) = z.bmod (2 * bound width)
    rw [← Int.emod_bmod y, h, Int.emod_bmod]

theorem wrap_eq_least_iff {z : Int} :
    (wrap z : Signed width) = least width ↔ HasLeastResidue width z := by
  have hleast : (wrap (-2 ^ (width - 1)) : Signed width) = least width := by
    rw [← bound_eq]
    exact wrap_eq rfl
  rw [← hleast, wrap_eq_wrap_iff hwidth]
  rfl

/-- The number that an exact value wraps to is the only one of its residue that fits. -/
theorem wrap_unique {u z : Int} (hle : -2 ^ (width - 1) ≤ u) (hlt : u ≤ 2 ^ (width - 1) - 1)
    (hmod : u ≡ z [ZMOD 2 ^ width]) : u = (wrap z : Signed width).val := by
  rw [← bound_eq] at hle hlt
  have hfits : (wrap u : Signed width) = ⟨u, hle, by omega⟩ := wrap_eq rfl
  rw [← (wrap_eq_wrap_iff hwidth).mpr hmod, hfits]

/-! ## Operations after wrapping -/

theorem wrap_add_wrap (a b : Int) :
    (wrap ((wrap a : Signed width).val + (wrap b : Signed width).val) : Signed width) =
      wrap (a + b) :=
  (wrap_eq_wrap_iff hwidth).mpr ((wrap_modEq hwidth a).add (wrap_modEq hwidth b))

theorem wrap_sub_wrap (a b : Int) :
    (wrap ((wrap a : Signed width).val - (wrap b : Signed width).val) : Signed width) =
      wrap (a - b) :=
  (wrap_eq_wrap_iff hwidth).mpr ((wrap_modEq hwidth a).sub (wrap_modEq hwidth b))

theorem wrap_mul_wrap (a b : Int) :
    (wrap ((wrap a : Signed width).val * (wrap b : Signed width).val) : Signed width) =
      wrap (a * b) :=
  (wrap_eq_wrap_iff hwidth).mpr ((wrap_modEq hwidth a).mul (wrap_modEq hwidth b))

theorem neg_wrap_of_least {z : Int} (h : HasLeastResidue width z) :
    ∃ error, Number.neg (wrap z : Signed width) = .error error := by
  rw [(wrap_eq_least_iff hwidth).mpr h]
  cases hneg : Number.neg (least width) with
  | error error => exact ⟨error, rfl⟩
  | ok x =>
    have hx : x.val = - -(bound width : Int) := neg_eq_ok_iff.mp hneg
    have hlt := x.val_lt
    omega

theorem neg_wrap_of_not_least {z : Int} (h : ¬HasLeastResidue width z) :
    Number.neg (wrap z : Signed width) = .ok (wrap (-z)) := by
  have hne : (wrap z : Signed width).val ≠ -(bound width : Int) := fun hval =>
    h ((wrap_eq_least_iff hwidth).mp (Signed.ext hval))
  cases hneg : Number.neg (wrap z : Signed width) with
  | error error => exact absurd (eq_of_neg_error hneg) hne
  | ok x =>
    have hx : x = wrap (-(wrap z : Signed width).val) := (wrap_eq (neg_eq_ok_iff.mp hneg)).symm
    rw [hx, (wrap_eq_wrap_iff hwidth).mpr (wrap_modEq hwidth z).neg]

end Signed

/-! ## Operators -/

/-- A sum, a difference or a product of wrapping arithmetic. -/
def Operator.Wraps (op : Operator (Signed width)) : Prop :=
  op ∈ (Table.wrapping (Signed width)).operators ∧ op.symbol ∈ [['+'], ['-'], ['*']]

/-- **The operation of wrapped numbers** is the wrapped one of the exact numbers. -/
theorem exists_apply_wrap (hwidth : 0 < width) {op : Operator (Signed width)} (hop : op.Wraps)
    (a b : Int) :
    ∃ z, exactOperation op.symbol a b = some z ∧ op.apply (.wrap a) (.wrap b) = .ok (.wrap z) := by
  obtain ⟨hmem, hsymbol⟩ := hop
  rw [Table.wrapping, Table.operators_withSums] at hmem
  simp only [List.mem_cons, List.not_mem_nil, or_false] at hmem
  rcases hmem with rfl | rfl | rfl | rfl | rfl | rfl
  · exact ⟨a + b, rfl, congrArg Except.ok (Signed.wrap_add_wrap hwidth a b)⟩
  · exact ⟨a - b, rfl, congrArg Except.ok (Signed.wrap_sub_wrap hwidth a b)⟩
  · exact ⟨a * b, rfl, congrArg Except.ok (Signed.wrap_mul_wrap hwidth a b)⟩
  · simp at hsymbol
  · simp at hsymbol
  · simp at hsymbol

/-! ## Expressions -/

namespace Expr

/-- Some operand of a negation has an exact value with the residue of the least number. -/
def NegatesLeast (e : Expr (Signed width)) : Prop :=
  ∃ d z, neg d ∈ e.subterms ∧ d.exactValue? = some z ∧ HasLeastResidue width z

theorem not_negatesLeast_num (x : Signed width) : ¬(num x).NegatesLeast := by
  rintro ⟨d, z, hd, _⟩
  cases List.mem_singleton.mp hd

theorem negatesLeast_neg {e : Expr (Signed width)} {z : Int} (hz : e.exactValue? = some z) :
    (neg e).NegatesLeast ↔ e.NegatesLeast ∨ HasLeastResidue width z := by
  constructor
  · rintro ⟨d, y, hd, hy, hleast⟩
    rcases List.mem_cons.mp hd with hd | hd
    · cases hd
      rw [hz] at hy
      cases hy
      exact Or.inr hleast
    · exact Or.inl ⟨d, y, hd, hy, hleast⟩
  · rintro (⟨d, y, hd, hy, hleast⟩ | hleast)
    · exact ⟨d, y, List.mem_cons_of_mem _ hd, hy, hleast⟩
    · exact ⟨e, z, List.mem_cons_self, hz, hleast⟩

theorem negatesLeast_bin {l r : Expr (Signed width)} {op : Operator (Signed width)} :
    (bin l op r).NegatesLeast ↔ l.NegatesLeast ∨ r.NegatesLeast := by
  constructor
  · rintro ⟨d, y, hd, hrest⟩
    rcases List.mem_cons.mp hd with hd | hd
    · cases hd
    · rcases List.mem_append.mp hd with hd | hd
      · exact Or.inl ⟨d, y, hd, hrest⟩
      · exact Or.inr ⟨d, y, hd, hrest⟩
  · rintro (⟨d, y, hd, hrest⟩ | ⟨d, y, hd, hrest⟩)
    · exact ⟨d, y, List.mem_cons_of_mem _ (List.mem_append_left _ hd), hrest⟩
    · exact ⟨d, y, List.mem_cons_of_mem _ (List.mem_append_right _ hd), hrest⟩

/-- How an expression with the exact value `z` ends: it fails at a negation, or wraps `z`. -/
def Settled (e : Expr (Signed width)) (z : Int) : Prop :=
  (e.NegatesLeast ∧ ∃ error, e.eval = .error error) ∨
    (¬e.NegatesLeast ∧ e.eval = .ok (.wrap z))

theorem settled_neg (hwidth : 0 < width) {e : Expr (Signed width)} {z : Int}
    (hz : e.exactValue? = some z) (h : e.Settled z) : (neg e).Settled (-z) := by
  rcases h with ⟨hleast, error, herror⟩ | ⟨hleast, hok⟩
  · exact Or.inl ⟨(negatesLeast_neg hz).mpr (Or.inl hleast), error, eval_neg_of_error herror⟩
  · by_cases hz' : HasLeastResidue width z
    · obtain ⟨error, herror⟩ := Signed.neg_wrap_of_least hwidth hz'
      exact Or.inl
        ⟨(negatesLeast_neg hz).mpr (Or.inr hz'), error, eval_neg_of_neg_error hok herror⟩
    · refine Or.inr ⟨?_, eval_neg_eq_ok_iff.mpr ⟨_, hok, Signed.neg_wrap_of_not_least hwidth hz'⟩⟩
      rw [negatesLeast_neg hz]
      exact not_or.mpr ⟨hleast, hz'⟩

theorem settled_bin {l r : Expr (Signed width)} {op : Operator (Signed width)} {a b z : Int}
    (happly : op.apply (.wrap a) (.wrap b) = .ok (.wrap z)) (hl : l.Settled a)
    (hr : r.Settled b) : (bin l op r).Settled z := by
  unfold Settled
  rw [negatesLeast_bin]
  rcases hl with ⟨hleast, error, herror⟩ | ⟨hleastl, hokl⟩
  · exact Or.inl ⟨Or.inl hleast, error, eval_bin_of_left_error herror⟩
  · rcases hr with ⟨hleast, error, herror⟩ | ⟨hleastr, hokr⟩
    · exact Or.inl ⟨Or.inr hleast, error, eval_bin_of_right_error hokl herror⟩
    · exact Or.inr ⟨not_or.mpr ⟨hleastl, hleastr⟩,
        eval_bin_eq_ok_iff.mpr ⟨_, _, hokl, hokr, happly⟩⟩

/-- **An expression of wrapping sums, differences and products** has an exact value, and fails at a
negation or has the number that it wraps to. -/
theorem eval_cases (hwidth : 0 < width) {e : Expr (Signed width)}
    (h : ∀ op ∈ e.operators, op.Wraps) : ∃ z, e.exactValue? = some z ∧ e.Settled z := by
  induction e with
  | num x =>
    have hwrap : Signed.wrap x.val = x := Signed.wrap_eq rfl
    exact ⟨x.val, rfl, Or.inr ⟨not_negatesLeast_num x, congrArg Except.ok hwrap.symm⟩⟩
  | neg e ih =>
    obtain ⟨z, hz, hsettled⟩ := ih h
    refine ⟨-z, ?_, settled_neg hwidth hz hsettled⟩
    rw [exactValue?, hz]
    rfl
  | bin l op r ihl ihr =>
    obtain ⟨hl, hop, hr⟩ := forall_operators_bin.mp h
    obtain ⟨a, ha, hsettledl⟩ := ihl hl
    obtain ⟨b, hb, hsettledr⟩ := ihr hr
    obtain ⟨z, hz, happly⟩ := exists_apply_wrap hwidth hop a b
    refine ⟨z, ?_, settled_bin happly hsettledl hsettledr⟩
    rw [exactValue?, ha, hb]
    exact hz

/-- **Wrapping evaluation is arithmetic modulo a power of two.**  An expression of wrapping sums,
differences, products and negations fails exactly if the exact value of the operand of some negation
is congruent to the least number.  Otherwise it has the one number of the width that is congruent to
its exact value, whatever wrapped on the way. -/
theorem eval_modular {width : Nat} (hwidth : 0 < width) {e : Expr (Signed width)}
    (h : ∀ op ∈ e.operators,
      op ∈ (Table.wrapping (Signed width)).operators ∧ op.symbol ∈ [['+'], ['-'], ['*']]) :
    ∃ z, e.exactValue? = some z ∧
      ((∃ error, e.eval = .error error) ↔ ∃ d y, neg d ∈ e.subterms ∧ d.exactValue? = some y ∧
        y ≡ -2 ^ (width - 1) [ZMOD 2 ^ width]) ∧
      ((¬∃ d y, neg d ∈ e.subterms ∧ d.exactValue? = some y ∧
          y ≡ -2 ^ (width - 1) [ZMOD 2 ^ width]) →
        ∃ v, e.eval = .ok v ∧ -2 ^ (width - 1) ≤ v.val ∧ v.val ≤ 2 ^ (width - 1) - 1 ∧
          v.val ≡ z [ZMOD 2 ^ width] ∧
          ∀ u : Int, -2 ^ (width - 1) ≤ u → u ≤ 2 ^ (width - 1) - 1 →
            u ≡ z [ZMOD 2 ^ width] → u = v.val) := by
  obtain ⟨z, hz, hsettled⟩ := eval_cases hwidth h
  refine ⟨z, hz, ?_, ?_⟩
  · rcases hsettled with ⟨hleast, herror⟩ | ⟨hleast, hok⟩
    · exact iff_of_true herror hleast
    · refine iff_of_false ?_ hleast
      rintro ⟨error, herror⟩
      exact eval_ne_ok herror _ hok
  · intro hleast
    rcases hsettled with ⟨hleast', _⟩ | ⟨_, hok⟩
    · exact absurd hleast' hleast
    · have hle := (Signed.wrap z : Signed width).le_val
      have hlt := (Signed.wrap z : Signed width).val_lt
      rw [Signed.bound_eq] at hle hlt
      exact ⟨_, hok, hle, by omega, Signed.wrap_modEq hwidth z,
        fun _ => Signed.wrap_unique hwidth⟩

theorem wraps_of_read {text : List Char} {e : Expr (Signed width)}
    (h : Expr.read (.wrapping (Signed width)) text = .ok e)
    (hsymbols : ∀ symbol ∈ e.operators.map Operator.symbol, symbol ∈ [['+'], ['-'], ['*']]) :
    ∀ op ∈ e.operators, op.Wraps := fun op hop =>
  ⟨Table.mem_of_get? (binds_of_read h op hop).1, hsymbols _ (List.mem_map_of_mem hop)⟩

/-- The negation of a product that wraps to the least number of 8 binary digits. -/
def leastProduct : Expr (Signed 8) :=
  neg (bin (num (.wrap 64)) ⟨['*'], BinaryFunction.apply .wrapMul, 20, .left⟩ (num (.wrap 2)))

/-- Two products that wrap, with a small difference, and one whose negation fails. -/
theorem eval_modular_products :
    (∃ e v, Expr.read (.wrapping (Signed 8)) "-(100 * 100) + 100 * 99".toList = .ok e ∧
        e.exactValue? = some (-100) ∧ e.eval = .ok v ∧ v.val = -100) ∧
      Expr.read (.wrapping (Signed 8)) "-(64 * 2)".toList = .ok leastProduct ∧
        ∃ error, leastProduct.eval = .error error := by
  constructor
  · have hread : (Expr.read (.wrapping (Signed 8)) "-(100 * 100) + 100 * 99".toList).toOption.map
        (fun e => (e.operators.map Operator.symbol, e.exactValue?, e.fails)) =
          some ([['*'], ['+'], ['*']], some (-100), false) := by decide +kernel
    obtain ⟨e, he, hvalue⟩ := exists_ok_of_map hread
    obtain ⟨hsymbols, hvalue⟩ := Prod.mk.inj hvalue
    obtain ⟨hexact, hfails⟩ := Prod.mk.inj hvalue
    obtain ⟨x, hx⟩ := fails_eq_false_iff.mp hfails
    obtain ⟨z, hz, hiff, hok⟩ := eval_modular (by decide)
      (wraps_of_read he (by rw [hsymbols]; decide))
    rw [hexact] at hz
    cases hz
    have hleast := mt hiff.mpr fun ⟨_, herror⟩ => eval_ne_ok herror x hx
    obtain ⟨v, hv, _, _, _, hunique⟩ := hok hleast
    exact ⟨e, v, he, hexact, hv, (hunique (-100) (by decide) (by decide) rfl).symm⟩
  · have hread : Expr.read (.wrapping (Signed 8)) "-(64 * 2)".toList = .ok leastProduct := by
      with_unfolding_all rfl
    obtain ⟨_, _, hiff, _⟩ := eval_modular (by decide) (wraps_of_read hread (by decide))
    exact ⟨hread, hiff.mpr ⟨_, 128, List.mem_cons_self, rfl, by decide⟩⟩

end Expr

end InfixCalculator
