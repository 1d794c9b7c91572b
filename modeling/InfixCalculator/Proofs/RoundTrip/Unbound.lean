import InfixCalculator.Proofs.RoundTrip

/-!
# Canonical texts with symbols that a table does not bind

The reader finds every operator of a canonical text where it was written.  It
therefore stops at the first one that has no operator in the table, and reads
the text if there is none.

* `Table.unbound?`: the first operator whose symbol is not bound.
* `run_render_of_unbound`: the reader stops there, before any rest.
* `read_render_of_unbound`: so the whole text has that symbol as its fault.
* `read_render_cases`: canonical texts of integer expressions are read exactly if all their
  symbols are bound.
-/

namespace InfixCalculator

variable {α : Type}

/-- The first operator whose symbol a table does not bind. -/
def Table.unbound? (t : Table α) (ops : List (Operator α)) : Option (Operator α) :=
  ops.find? fun op => (t.get? op.symbol).isNone

theorem Table.unbound?_eq_none_iff {t : Table α} {ops : List (Operator α)} :
    t.unbound? ops = none ↔ ∀ op ∈ ops, (t.get? op.symbol).isSome = true := by
  simp [unbound?, Option.isSome_iff_ne_none]

theorem Table.unbound?_append {t : Table α} {ops ops' : List (Operator α)} :
    t.unbound? (ops ++ ops') = (t.unbound? ops).or (t.unbound? ops') := List.find?_append

theorem Table.unbound?_cons {t : Table α} {op : Operator α} {ops : List (Operator α)} :
    t.unbound? (op :: ops) = if t.get? op.symbol = none then some op else t.unbound? ops := by
  cases h : t.get? op.symbol with
  | none => simp [unbound?, h]
  | some op' => simp [unbound?, h]

theorem dropBlank_space {w : List Char} (hw : Solid w) (rest : List Char) :
    dropBlank (' ' :: (w ++ rest)) = w ++ rest := by
  have hspace : ' ' :: (w ++ rest) = [' '] ++ (w ++ rest) := rfl
  rw [hspace, dropBlank_append blank_space, hw.dropBlank_append]

variable [Number α] {t : Table α}

open Reader

/-- **The reader stops at the first unbound operator** of a canonical text, wherever the text
stands. -/
theorem run_render_of_unbound {s : α → Expr α} {e : Expr α} {op : Operator α}
    (hnum : ∀ x ∈ e.numbers, Spells t x (s x)) (hsymbol : ∀ op ∈ e.operators, Usable op.symbol)
    (h : t.unbound? e.operators = some op) (frame : Frame α) (outer : List (Frame α))
    (rest : List Char) :
    (run t (.operand frame outer) (e.render ++ rest)).result =
      .error (.unknownOperator op.symbol) := by
  induction e generalizing frame outer rest with
  | num x => cases h
  | neg e ih =>
    have htext : (Expr.neg e).render ++ rest = '-' :: '(' :: (e.render ++ ')' :: rest) := by
      simp [Expr.render]
    have hsolid : Solid e.render := solid_render hnum
    rw [htext, run_negation frame outer rfl, run_opening, hsolid.dropBlank_append]
    exact ih hnum hsymbol h .start (frame.negate :: outer) (')' :: rest)
  | bin l m r ihl ihr =>
    obtain ⟨hnuml, hnumr⟩ := List.forall_mem_append.mp hnum
    obtain ⟨hsymboll, hm, hsymbolr⟩ := Expr.forall_operators_bin.mp hsymbol
    have htext : (Expr.bin l m r).render ++ rest =
        '(' :: (l.render ++ ' ' :: (m.symbol ++ ' ' :: (r.render ++ ')' :: rest))) := by
      simp [Expr.render]
    rw [htext, run_opening, (solid_render hnuml).dropBlank_append]
    rw [Expr.operators, Table.unbound?_append] at h
    rcases Option.or_eq_some_iff.mp h with h | ⟨hnone, h⟩
    · exact ihl hnuml hsymboll h .start (frame :: outer) _
    · -- the left operand is read, and the operator of the root is met
      have hleft : ReadsOperand t l.render ((l.rebind t).subst s)
          (' ' :: (m.symbol ++ ' ' :: (r.render ++ ')' :: rest))) :=
        readsOperand_render hnuml
          (fun op hop => ⟨hsymboll op hop, Table.unbound?_eq_none_iff.mp hnone op hop⟩)
          (apart_of_blank (by decide) blank_space _)
      have hrun : operatorRun (m.symbol ++ ' ' :: (r.render ++ ')' :: rest)) = m.symbol :=
        (hm.maximal (by decide) blank_space _).takeWhile_eq
      rw [hleft, dropBlank_space hm.solid]
      rw [Table.unbound?_cons] at h
      split at h
      · rename_i hget
        cases h
        rw [run_unknown _ _ (hrun.symm ▸ hm.1) (hrun.symm ▸ hget), hrun]
        rfl
      · rename_i hget
        obtain ⟨op', hop'⟩ := Option.ne_none_iff_exists'.mp hget
        rw [run_operator _ _ hm.1 hrun hop', dropBlank_space (solid_render hnumr)]
        exact ihr hnumr hsymbolr h _ _ _

theorem read_render_of_unbound {s : α → Expr α} {e : Expr α} {op : Operator α}
    (hnum : ∀ x ∈ e.numbers, Spells t x (s x)) (hsymbol : ∀ op ∈ e.operators, Usable op.symbol)
    (h : t.unbound? e.operators = some op) :
    Expr.read t e.render = .error (.unknownOperator op.symbol) := by
  have hrun := run_render_of_unbound hnum hsymbol h .start [] []
  rw [← (solid_render hnum).dropBlank_append, List.append_nil] at hrun
  exact hrun

/-- **A canonical text of integers is read exactly if all its symbols are bound**, and then with the
operators of the table. -/
theorem read_render_cases {width : Nat} (t : Table (Signed width)) {e : Expr (Signed width)}
    (hsymbol : ∀ op ∈ e.operators, Usable op.symbol) :
    (Expr.read t e.render = .ok (e.rebind t) ∧ ∀ op ∈ e.operators, op.symbol ∈ t.symbols) ∨
      ∃ op ∈ e.operators, Expr.read t e.render = .error (.unknownOperator op.symbol) ∧
        op.symbol ∉ t.symbols := by
  have hlegible : ∀ x ∈ e.numbers, Legible x := fun x _ => legible_signed x
  cases h : t.unbound? e.operators with
  | none =>
    have hbound := Table.unbound?_eq_none_iff.mp h
    have hoperators : ∀ op ∈ e.operators, Usable op.symbol ∧ (t.get? op.symbol).isSome = true :=
      fun op hop => ⟨hsymbol op hop, hbound op hop⟩
    refine Or.inl ⟨read_render_of_legible hlegible hoperators, ?_⟩
    intro op hop
    exact Table.get?_isSome_iff.mp (hbound op hop)
  | some op =>
    have hget := List.find?_some h
    refine Or.inr ⟨op, List.mem_of_find?_eq_some h, ?_, ?_⟩
    · exact read_render_of_unbound (fun x hx => (hlegible x hx).spells) hsymbol h
    · rw [← Table.get?_isSome_iff]
      simpa using hget

end InfixCalculator
