import InfixCalculator.Proofs.Lockstep
import InfixCalculator.Calculator

/-!
# What a table decides

The priorities, associativities and functions of a table decide how the
operations of a text are grouped and what they compute.  Which texts are
expressions, what is wrong with the others, and in which order numbers, symbols
and signs stand in an expression is decided by the symbols alone.

Two expressions are `Aligned` if they hold the same numbers and symbols from left
to right and have their negations over the same stretches of them.  Two readers
with tables of the same symbols go through a text in step, and the chains that
they have built are aligned all the time, although one may have put an operator
at the root where the other one has it far below.

* `Table.SameSymbols`: two tables with the same symbols that can be met.
* `Grouping.aligned_attach`: one operation more keeps two chains aligned.
* `lockstep_aligned`: so does every step of two readers with tables of the same symbols.
* `parse_aligned`: two calculators give the same error, or aligned expressions.
-/

namespace InfixCalculator

variable {α : Type}

/-- The two tables bind the same symbols of those that can be met in a text. -/
def Table.SameSymbols (t t' : Table α) : Prop :=
  ∀ symbol, Usable symbol → (symbol ∈ t.symbols ↔ symbol ∈ t'.symbols)

theorem Table.SameSymbols.isSome_get? {t t' : Table α} (h : t.SameSymbols t')
    {symbol : List Char} (hsymbol : Usable symbol) :
    (t.get? symbol).isSome = (t'.get? symbol).isSome := by
  rw [Bool.eq_iff_iff, Table.get?_isSome_iff, Table.get?_isSome_iff]
  exact h symbol hsymbol

/-! ## Aligned expressions -/

namespace Expr

/-- The numbers and operator symbols from left to right. -/
def inorder : Expr α → List (α ⊕ List Char)
  | num x => [.inl x]
  | neg e => e.inorder
  | bin l op r => l.inorder ++ .inr op.symbol :: r.inorder

/-- The stretches of the numbers and symbols that stand under a negation, for an expression whose
first number is at a given place.  A stretch is told by its first place and its length. -/
def negations : Expr α → Nat → List (Nat × Nat)
  | num _, _ => []
  | neg e, start => (start, e.inorder.length) :: e.negations start
  | bin l _ r, start => l.negations start ++ r.negations (start + l.inorder.length + 1)

/-- The same numbers and symbols in the same order, and negations over the same stretches. -/
structure Aligned (e e' : Expr α) : Prop where
  inorder_eq : e.inorder = e'.inorder
  negations_eq : ∀ start, e.negations start = e'.negations start

theorem aligned_refl (e : Expr α) : e.Aligned e := ⟨rfl, fun _ => rfl⟩

theorem Aligned.neg {e e' : Expr α} (h : e.Aligned e') : (neg e).Aligned (neg e') := by
  refine ⟨h.inorder_eq, ?_⟩
  intro start
  rw [negations, negations, h.inorder_eq, h.negations_eq]

end Expr

/-! ## Aligned chains -/

namespace Grouping

theorem inorder_toExpr_attach (g : Grouping α) (op : Operator α) (e : Expr α) :
    (g.attach op e).toExpr.inorder = g.toExpr.inorder ++ .inr op.symbol :: e.inorder := by
  induction g with
  | atom x => rfl
  | node l m r _ ih =>
    unfold attach
    split
    · simp [toExpr, Expr.inorder, ih]
    · simp [toExpr, Expr.inorder]

theorem negations_toExpr_attach (g : Grouping α) (op : Operator α) (e : Expr α) (start : Nat) :
    (g.attach op e).toExpr.negations start =
      g.toExpr.negations start ++ e.negations (start + g.toExpr.inorder.length + 1) := by
  induction g generalizing start with
  | atom x => rfl
  | node l m r _ ih =>
    unfold attach
    split
    · simp only [toExpr, Expr.negations, Expr.inorder, ih, List.append_assoc, List.length_append,
        List.length_cons]
      congr 4
      omega
    · rfl

/-- **One operation more keeps two chains aligned**, wherever each of them puts it. -/
theorem aligned_attach {g g' : Grouping α} {op op' : Operator α} {e e' : Expr α}
    (hg : g.toExpr.Aligned g'.toExpr) (hsymbol : op.symbol = op'.symbol) (he : e.Aligned e') :
    (g.attach op e).toExpr.Aligned (g'.attach op' e').toExpr := by
  constructor
  · rw [inorder_toExpr_attach, inorder_toExpr_attach, hg.inorder_eq, hsymbol, he.inorder_eq]
  · intro start
    rw [negations_toExpr_attach, negations_toExpr_attach, hg.inorder_eq, hg.negations_eq,
      he.negations_eq]

end Grouping

/-! ## Readers in step -/

/-- What two readers have in common that see the same symbols. -/
theorem lockstep_aligned {t t' : Table α} (ht : t.SameSymbols t') :
    Lockstep t t' (fun op op' => op.symbol = op'.symbol) Expr.Aligned
      (fun g g' => g.toExpr.Aligned g'.toExpr) where
  get? := by
    intro symbol hsymbol
    have hsome := ht.isSome_get? hsymbol
    cases hop : t.get? symbol with
    | none =>
      have hop' : t'.get? symbol = none := by
        rw [← Option.not_isSome_iff_eq_none, ← hsome, hop]
        exact Bool.false_ne_true
      rw [hop']
      exact .none
    | some op =>
      rw [hop] at hsome
      obtain ⟨op', hop'⟩ := Option.isSome_iff_exists.mp hsome.symm
      rw [hop']
      exact .some (by rw [Table.symbol_of_get? hop, Table.symbol_of_get? hop'])
  num := fun x => Expr.aligned_refl (.num x)
  neg := Expr.Aligned.neg
  atom := fun he => he
  attach := Grouping.aligned_attach
  toExpr := fun hg => hg

/-- **Priorities, associativities and functions decide the grouping and nothing else.**  With tables
of the same symbols a text is refused with the same error, or read as aligned expressions. -/
theorem parse_aligned [Number α] {c c' : Calculator α} (h : c.table.SameSymbols c'.table)
    (text : List Char) :
    (∃ error, c.parse text = .error error ∧ c'.parse text = .error error) ∨
      ∃ e e', c.parse text = .ok e ∧ c'.parse text = .ok e' ∧
        e.inorder = e'.inorder ∧ e.negations 0 = e'.negations 0 := by
  rcases (lockstep_aligned h).read_cases text with
    ⟨fault, hread, hread'⟩ | ⟨e, e', hread, hread', he⟩
  · exact Or.inl ⟨fault.toError, Calculator.parse_of_error hread,
      Calculator.parse_of_error hread'⟩
  · exact Or.inr ⟨e, e', Calculator.parse_eq_ok_iff.mpr hread,
      Calculator.parse_eq_ok_iff.mpr hread', he.inorder_eq, he.negations_eq 0⟩

/-! ### Two tables of the same symbols -/

/-- Products bind tighter than sums, and both group to the left. -/
def productsFirst : Calculator (Signed 8) :=
  ⟨.ofList [⟨['+'], Number.add, 1, .left⟩, ⟨['*'], Number.mul, 2, .left⟩]⟩

/-- Everything groups to the right, and there are entries that no text can reach. -/
def allRight : Calculator (Signed 8) :=
  ⟨.ofList [⟨[], Number.sub, 9, .right⟩, ⟨['*'], Number.sub, 0, .right⟩,
    ⟨['+', '1'], Number.add, 5, .none⟩, ⟨['+'], Number.mul, 0, .right⟩]⟩

theorem sameSymbols_productsFirst_allRight :
    productsFirst.table.SameSymbols allRight.table := by
  have hproducts : productsFirst.table.symbols = [['+'], ['*']] := rfl
  have hright : allRight.table.symbols = [[], ['*'], ['+', '1'], ['+']] := rfl
  intro symbol hsymbol
  have hempty : symbol ≠ [] := hsymbol.1
  have hdigit : symbol ≠ ['+', '1'] := by
    rintro rfl
    exact absurd hsymbol (by decide)
  rw [hproducts, hright]
  simp [hempty, hdigit, or_comm]

theorem parse_aligned_productsFirst :
    productsFirst.table.SameSymbols allRight.table ∧
      ∃ e e', productsFirst.parse "1 + -(2 * 3) * 4 + 5".toList = .ok e ∧
        allRight.parse "1 + -(2 * 3) * 4 + 5".toList = .ok e' ∧
        e.render = "((1 + (-((2 * 3)) * 4)) + 5)".toList ∧
        e'.render = "(1 + (-((2 * 3)) * (4 + 5)))".toList ∧
        e.inorder = e'.inorder ∧ e.negations 0 = e'.negations 0 := by
  have hsame := sameSymbols_productsFirst_allRight
  have htext : (productsFirst.parse "1 + -(2 * 3) * 4 + 5".toList).toOption.map Expr.render =
      some "((1 + (-((2 * 3)) * 4)) + 5)".toList := by decide +kernel
  have htext' : (allRight.parse "1 + -(2 * 3) * 4 + 5".toList).toOption.map Expr.render =
      some "(1 + (-((2 * 3)) * (4 + 5)))".toList := by decide +kernel
  obtain ⟨e, hread, he⟩ := exists_ok_of_map htext
  obtain ⟨e', hread', he'⟩ := exists_ok_of_map htext'
  refine ⟨hsame, e, e', hread, hread', he, he', ?_⟩
  rcases parse_aligned hsame "1 + -(2 * 3) * 4 + 5".toList with
    ⟨error, herror, _⟩ | ⟨d, d', hd, hd', halign⟩
  · rw [hread] at herror
    cases herror
  · rw [hread] at hd
    rw [hread'] at hd'
    cases hd
    cases hd'
    exact halign

end InfixCalculator
