import InfixCalculator.Number.Signed
import InfixCalculator.Proofs.Grammar

/-!
# Canonical texts are read back

The canonical text of an expression has parentheses around every operation, so
the reader finds every operand of it where it was written, and priorities do
not matter.  All that is needed is that numbers and symbols end where they
should: the text of a number is an operand in any place (`Spells`), and a symbol
is one run.  Most numbers are one literal (`Legible`) and are read as themselves.

* `Expr.rebind`: an expression with the operators that a table has for its symbols.
* `Expr.subst`: an expression with an expression in the place of each number.
* `readsOperand_render`: the canonical text is an operand, before any text that
  no literal reaches into.
* `legible_signed`: integers are legible.
* `read_render`: for integers, what is written is read back, and an expression
  that was read is read back as it is.
-/

namespace InfixCalculator

variable {α : Type}

namespace Expr

/-- The expression with the operators that its symbols have in a table. -/
def rebind (t : Table α) : Expr α → Expr α
  | num x => num x
  | neg e => neg (e.rebind t)
  | bin l op r => bin (l.rebind t) ((t.get? op.symbol).getD op) (r.rebind t)

theorem rebind_eq_self {t : Table α} {e : Expr α} (h : t.Binds e.operators) : e.rebind t = e := by
  induction e with
  | num x => rfl
  | neg e ih => rw [rebind, ih h]
  | bin l op r ihl ihr =>
    obtain ⟨hl, ⟨hop, _⟩, hr⟩ := Table.binds_bin.mp h
    rw [rebind, ihl hl, ihr hr, hop]
    rfl

/-- The expression with an expression in the place of each number. -/
def subst (s : α → Expr α) : Expr α → Expr α
  | num x => s x
  | neg e => neg (e.subst s)
  | bin l op r => bin (l.subst s) op (r.subst s)

theorem subst_eq_self {s : α → Expr α} {e : Expr α} (h : ∀ x ∈ e.numbers, s x = num x) :
    e.subst s = e := by
  induction e with
  | num x => exact h x (List.mem_singleton.mpr rfl)
  | neg e ih => rw [subst, ih h]
  | bin l op r ihl ihr =>
    obtain ⟨hl, hr⟩ := List.forall_mem_append.mp h
    rw [subst, ihl hl, ihr hr]

end Expr

variable [Number α] {t : Table α}

theorem Expr.eval_subst {s : α → Expr α} {e : Expr α}
    (h : ∀ x ∈ e.numbers, (s x).eval = .ok x) : (e.subst s).eval = e.eval := by
  induction e with
  | num x => exact h x (List.mem_singleton.mpr rfl)
  | neg e ih => rw [subst, eval, eval, ih h]
  | bin l op r ihl ihr =>
    obtain ⟨hl, hr⟩ := List.forall_mem_append.mp h
    rw [subst, eval, eval, ihl hl, ihr hr]

/-- The text of a number is an operand in any place, and is read as an expression. -/
structure Spells (t : Table α) (x : α) (e : Expr α) : Prop where
  solid : Solid (Number.text x)
  reads : ∀ rest, Apart rest → ReadsOperand t (Number.text x) e rest

/-- A number whose text is one literal in any place, and is read back. -/
structure Legible (x : α) : Prop where
  ne_nil : Number.text x ≠ []
  literal : ∀ c ∈ Number.text x, isLiteralChar c = true
  opening : (Number.text x).head? ≠ some '('
  sign : ∀ rest, startsNegation (Number.text x ++ rest) = false
  read : Number.read? (Number.text x) = some x

theorem Legible.spells {x : α} (hx : Legible x) : Spells t x (.num x) := by
  obtain ⟨c, l, htext⟩ := List.exists_cons_of_ne_nil hx.ne_nil
  have hsolid : Solid (Number.text x) := by
    rw [htext]
    exact solid_cons (isBlank_of_isLiteralChar (hx.literal c (by simp [htext]))) l
  exact ⟨hsolid, fun rest hrest =>
    readsOperand_literal hx.ne_nil ⟨hx.literal, hrest⟩ hx.opening (hx.sign rest) hx.read⟩

/-! ## Operands in parentheses -/

theorem ReadsOperand.parenthesised {w rest : List Char} {e : Expr α}
    (h : ReadsOperand t w e (')' :: rest)) (hw : Solid w) :
    ReadsOperand t ('(' :: (w ++ [')'])) e rest := (h.single hw).group

theorem ReadsOperand.operation {w x symbol rest : List Char} {l r : Expr α} {op : Operator α}
    (hl : ReadsOperand t w l ((' ' :: (symbol ++ ' ' :: x)) ++ ')' :: rest))
    (hr : ReadsOperand t x r (')' :: rest)) (hop : t.get? symbol = some op)
    (hsymbol : Usable symbol) (hw : Solid w)
    (hx : Solid x) :
    ReadsOperand t ('(' :: (w ++ ' ' :: (symbol ++ ' ' :: (x ++ [')'])))) (.bin l op r) rest := by
  have hlinks : ReadsOperations t (' ' :: (symbol ++ ' ' :: x)) [(op, r)] (')' :: rest) := by
    have hmax : Maximal isOperatorChar symbol ([' '] ++ x ++ [] ++ ')' :: rest) := by
      rw [List.append_assoc, List.append_assoc]
      exact hsymbol.maximal (by decide) blank_space _
    have hlink : ReadsOperations t (symbol ++ [' '] ++ x ++ []) [(op, r)] (')' :: rest) :=
      (readsOperations_nil _).cons hr hsymbol.1 hmax hop blank_space hx
    have hblank := hlink.blank blank_space
    simpa using hblank
  have hchain : ReadsChain t ([] ++ w ++ ' ' :: (symbol ++ ' ' :: x))
      ((Grouping.atom l).attachAll [(op, r)]) (')' :: rest) := hl.chain hlinks blank_nil hw
  have htree : ((Grouping.atom l).attachAll [(op, r)]).toExpr = .bin l op r := rfl
  have hgroup := hchain.group
  rw [htree] at hgroup
  simpa using hgroup

/-! ## Canonical texts -/

theorem solid_render {s : α → Expr α} {e : Expr α} (hnum : ∀ x ∈ e.numbers, Spells t x (s x)) :
    Solid e.render := by
  cases e with
  | num x => exact (hnum x (List.mem_singleton.mpr rfl)).solid
  | neg e => exact solid_cons (by decide) _
  | bin l op r => exact solid_cons (by decide) _

/-- **The canonical text is an operand** with the operators of the table, and with what the texts of
the numbers are read as. -/
theorem readsOperand_render {s : α → Expr α} {e : Expr α}
    (hnum : ∀ x ∈ e.numbers, Spells t x (s x))
    (hops : ∀ op ∈ e.operators, Usable op.symbol ∧ (t.get? op.symbol).isSome = true)
    {rest : List Char} (hrest : Apart rest) :
    ReadsOperand t e.render ((e.rebind t).subst s) rest := by
  induction e generalizing rest with
  | num x => exact (hnum x (List.mem_singleton.mpr rfl)).reads rest hrest
  | neg e ih =>
    have he := (ih hnum hops (apart_closing rest)).parenthesised (solid_render hnum)
    exact he.neg rfl
  | bin l op r ihl ihr =>
    obtain ⟨hnuml, hnumr⟩ := List.forall_mem_append.mp hnum
    obtain ⟨hopsl, ⟨hsymbol, hsome⟩, hopsr⟩ := Expr.forall_operators_bin.mp hops
    obtain ⟨op', hop⟩ := Option.isSome_iff_exists.mp hsome
    have hspace : ∀ rest : List Char, Apart (' ' :: rest) :=
      apart_of_blank (by decide) blank_space
    have hbin := (ihl hnuml hopsl (hspace _)).operation
      (ihr hnumr hopsr (apart_closing rest)) hop hsymbol (solid_render hnuml) (solid_render hnumr)
    rw [Expr.rebind, hop]
    exact hbin

theorem read_render_of_spells {s : α → Expr α} {e : Expr α}
    (hnum : ∀ x ∈ e.numbers, Spells t x (s x))
    (hops : ∀ op ∈ e.operators, Usable op.symbol ∧ (t.get? op.symbol).isSome = true) :
    Expr.read t e.render = .ok ((e.rebind t).subst s) := by
  have hoperand : ReadsOperand t e.render ((e.rebind t).subst s) [] :=
    readsOperand_render hnum hops apart_nil
  exact (hoperand.single (solid_render hnum)).expr_read_eq

theorem read_render_of_legible {e : Expr α} (hnum : ∀ x ∈ e.numbers, Legible x)
    (hops : ∀ op ∈ e.operators, Usable op.symbol ∧ (t.get? op.symbol).isSome = true) :
    Expr.read t e.render = .ok (e.rebind t) := by
  rw [read_render_of_spells (s := Expr.num) (fun x hx => (hnum x hx).spells) hops,
    Expr.subst_eq_self fun _ _ => rfl]

/-! ## Integers -/

theorem isLiteralChar_of_isDigit {c : Char} (h : c.isDigit = true) : isLiteralChar c = true := by
  have hclosing : c ≠ ')' := by
    rintro rfl
    cases h
  simp [isLiteralChar, isBlank_eq_false_of_isDigit h, hclosing]

/-- Digits and what may follow them in a literal, with or without a `-` in front. -/
theorem legible_of_isDigit {x : α} {c : Char} {l : List Char} (hc : c.isDigit = true)
    (hl : ∀ d ∈ l, isLiteralChar d = true)
    (htext : Number.text x = c :: l ∨ Number.text x = '-' :: c :: l)
    (hread : Number.read? (Number.text x) = some x) : Legible x := by
  have hdigits : ∀ d ∈ c :: l, isLiteralChar d = true :=
    List.forall_mem_cons.mpr ⟨isLiteralChar_of_isDigit hc, hl⟩
  rcases htext with htext | htext
  · have hopening : c ≠ '(' := by
      rintro rfl
      cases hc
    have hsign : c ≠ '-' := by
      rintro rfl
      cases hc
    refine ⟨by simp [htext], htext ▸ hdigits, by simp [htext, hopening], ?_, hread⟩
    intro rest
    rw [htext]
    simp [startsNegation, hsign]
  · refine ⟨by simp [htext], ?_, by simp [htext], ?_, hread⟩
    · rw [htext]
      exact List.forall_mem_cons.mpr ⟨by decide, hdigits⟩
    · intro rest
      rw [htext]
      simp [startsNegation, hc]

theorem legible_signed {width : Nat} (x : Signed width) : Legible x := by
  have htext : Number.text x = intText x.val := rfl
  obtain ⟨c, l, hdigits, hc⟩ := head_natText x.val.natAbs
  have hl : ∀ d ∈ l, isLiteralChar d = true := by
    intro d hd
    have hmem : d ∈ natText x.val.natAbs := by simp [hdigits, hd]
    exact isLiteralChar_of_isDigit (isDigit_of_mem_natText hmem)
  refine legible_of_isDigit hc hl ?_ (Signed.read?_text x)
  rw [htext, intText, hdigits]
  split
  · exact Or.inr rfl
  · exact Or.inl rfl

/-- **Canonical texts of integer expressions are read back**, whatever the priorities of a table:
with the operators of the table in the place of the ones that were written, and as it is for an
expression that was read with the table before. -/
theorem read_render {width : Nat} (t : Table (Signed width)) :
    (∀ e : Expr (Signed width),
      (∀ op ∈ e.operators, Usable op.symbol ∧ (t.get? op.symbol).isSome = true) →
        Expr.read t e.render = .ok (e.rebind t)) ∧
      ∀ (text : List Char) (e : Expr (Signed width)),
        Expr.read t text = .ok e → Expr.read t e.render = .ok e := by
  have hlegible : ∀ e : Expr (Signed width), ∀ x ∈ e.numbers, Legible x :=
    fun _ x _ => legible_signed x
  refine ⟨fun e hops => read_render_of_legible (hlegible e) hops, ?_⟩
  intro text e h
  have hb := binds_of_read h
  have hops : ∀ op ∈ e.operators, Usable op.symbol ∧ (t.get? op.symbol).isSome = true := by
    intro op hop
    obtain ⟨hget, hsymbol⟩ := hb op hop
    exact ⟨hsymbol, by rw [hget]; rfl⟩
  rw [read_render_of_legible (hlegible e) hops, Expr.rebind_eq_self hb]

/-- A table with a symbol that looks like a negation. -/
def lookalike : Table (Signed 8) := .ofList [⟨['-', '('], Number.sub, 5, .right⟩]

theorem read_render_lookalike :
    Expr.read lookalike "(-(-1) -( -1)".toList =
        .ok (.bin (.neg (.num Signed.minusOne)) ⟨['-', '('], Number.sub, 5, .right⟩
          (.num Signed.minusOne)) ∧
      Expr.read lookalike "(-1 -( -1)".toList =
        .ok (.bin (.num Signed.minusOne) ⟨['-', '('], Number.sub, 5, .right⟩
          (.num Signed.minusOne)) := by
  refine ⟨?_, ?_⟩
  · refine (read_render lookalike).1 (.bin (.neg (.num Signed.minusOne))
      ⟨['-', '('], Number.add, 0, .left⟩ (.num Signed.minusOne)) ?_
    intro op hop
    cases List.mem_singleton.mp hop
    exact ⟨by decide, by decide⟩
  · exact (read_render lookalike).2 "-1 -( -1".toList _ (by with_unfolding_all rfl)

end InfixCalculator
