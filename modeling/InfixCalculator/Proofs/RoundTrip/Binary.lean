import InfixCalculator.Number.Binary.Power
import InfixCalculator.Operator.Catalogue
import InfixCalculator.Proofs.RoundTrip
import InfixCalculator.Proofs.Text.Positional

/-!
# Canonical texts of floating-point expressions

In a canonical text all binary numbers but one are literals.  The exception is
the negative infinity: a `-` belongs to a literal before a digit only, so `-inf`
is read as the negation of the positive infinity, and a literal with a large
exponent, such as `-1e999`, is a number whose text is read as something else.

Reading a canonical text therefore puts `Binary.spelling` in the place of every
number.  That keeps all values, but the text of the result has parentheses which
were not there before.

* `legible_binary`: all numbers but the negative infinity are legible.
* `length_render_spelling`: how much longer the text of the result is.
* `render_reread`: the text stays exactly where no number is the negative
  infinity, and from then on it stays in any case.
* `eval_reread`: the value stays, or the error that comes in its place.
-/

namespace InfixCalculator.Binary

variable {f : Format}

/-- What the text of a number is read as. -/
def spelling : Binary f → Expr (Binary f)
  | .infinity true => .neg (.num (.infinity false))
  | x => .num x

theorem spelling_of_ne {x : Binary f} (h : x ≠ .infinity true) : spelling x = .num x := by
  unfold spelling
  split
  · exact absurd rfl h
  · rfl

theorem infinity_notMem_numbers_subst (e : Expr (Binary f)) :
    .infinity true ∉ (e.subst spelling).numbers := by
  induction e with
  | num x =>
    by_cases hx : x = .infinity true
    · subst hx
      simp [Expr.subst, spelling, Expr.numbers]
    · rw [Expr.subst, spelling_of_ne hx, Expr.numbers, List.mem_singleton]
      exact Ne.symm hx
  | neg e ih => exact ih
  | bin l op r ihl ihr => exact List.not_mem_append ihl ihr

variable [f.Power] {t : Table (Binary f)}

/-! ## Texts of numbers -/

theorem legible_finite (negative : Bool) {n : Nat} (h : f.Fits n) :
    Legible (.finite negative n h : Binary f) := by
  have hnumeral := numeral_quantaText f n
  obtain ⟨c, l, htext, hc⟩ := hnumeral.head
  have hl : ∀ d ∈ l, isLiteralChar d = true := by
    intro d hd
    rcases hnumeral.all d (htext ▸ List.mem_cons_of_mem c hd) with hd | rfl
    · exact isLiteralChar_of_isDigit hd
    · decide
  refine legible_of_isDigit hc hl ?_ (read?_text _)
  cases negative with
  | false => exact Or.inl htext
  | true => exact Or.inr (congrArg ('-' :: ·) htext)

/-- A number that is written as a word without a sign. -/
theorem legible_of_word {x : Binary f} {word : List Char} (htext : x.text = word)
    (hne : word ≠ []) (hword : word.all isLiteralChar = true)
    (hopening : word.head? ≠ some '(') (hminus : word.head? ≠ some '-') : Legible x := by
  subst htext
  refine ⟨hne, List.all_eq_true.mp hword, hopening, ?_, read?_text x⟩
  intro rest
  obtain ⟨c, l, htext⟩ := List.exists_cons_of_ne_nil hne
  have hc : c ≠ '-' := by
    rintro rfl
    exact hminus (by rw [htext]; rfl)
  show startsNegation (x.text ++ rest) = false
  rw [htext]
  simp [startsNegation, hc]

theorem legible_nan : Legible (.nan : Binary f) := by
  have htext : (.nan : Binary f).text = ['N', 'a', 'N'] := rfl
  exact legible_of_word htext (by decide) rfl (by decide) (by decide)

theorem legible_infinity : Legible (.infinity false : Binary f) := by
  have htext : (.infinity false : Binary f).text = ['i', 'n', 'f'] := rfl
  exact legible_of_word htext (by decide) rfl (by decide) (by decide)

/-- All numbers but the negative infinity are one literal. -/
theorem legible_binary {x : Binary f} (hx : x ≠ .infinity true) : Legible x := by
  cases x with
  | nan => exact legible_nan
  | infinity negative =>
    cases negative with
    | false => exact legible_infinity
    | true => exact absurd rfl hx
  | finite negative n h => exact legible_finite negative h

theorem spells_spelling (t : Table (Binary f)) (x : Binary f) : Spells t x (spelling x) := by
  by_cases hx : x = .infinity true
  · subst hx
    refine ⟨solid_cons (by decide) _, ?_⟩
    intro rest hrest
    exact (legible_infinity.spells.reads rest hrest).neg rfl
  · rw [spelling_of_ne hx]
    exact (legible_binary hx).spells

theorem eval_spelling (x : Binary f) : (spelling x).eval = .ok x := by
  by_cases hx : x = .infinity true
  · subst hx
    rfl
  · rw [spelling_of_ne hx]
    rfl

/-! ## Expressions that are read again -/

theorem read_render_spelling {text : List Char} {e : Expr (Binary f)}
    (h : Expr.read t text = .ok e) : Expr.read t e.render = .ok (e.subst spelling) := by
  have hb := binds_of_read h
  rw [read_render_of_spells (fun x _ => spells_spelling t x) hb.usable, Expr.rebind_eq_self hb]

/-- Every negative infinity makes the text two characters longer. -/
theorem length_render_spelling (e : Expr (Binary f)) :
    (e.subst spelling).render.length =
      e.render.length + 2 * e.numbers.count (.infinity true) := by
  induction e with
  | num x =>
    by_cases hx : x = .infinity true
    · subst hx
      rw [Expr.numbers, List.count_singleton_self]
      rfl
    · have hbeq : (x == .infinity true) = false := by simpa using hx
      rw [Expr.subst, spelling_of_ne hx, Expr.numbers, List.count_singleton, hbeq]
      rfl
  | neg e ih =>
    simp only [Expr.subst, Expr.render, Expr.numbers, List.length_cons, List.length_append, ih]
    omega
  | bin l op r ihl ihr =>
    simp only [Expr.subst, Expr.render, Expr.numbers, List.length_cons, List.length_append,
      List.count_append, ihl, ihr]
    omega

theorem render_spelling_eq_iff (e : Expr (Binary f)) :
    (e.subst spelling).render = e.render ↔ .infinity true ∉ e.numbers := by
  constructor
  · intro heq hmem
    have hlength := length_render_spelling e
    have hpos := List.count_pos_iff.mpr hmem
    rw [heq] at hlength
    omega
  · intro hmem
    rw [Expr.subst_eq_self]
    intro x hx
    refine spelling_of_ne ?_
    rintro rfl
    exact hmem hx

/-- **Reading a canonical text** gives an expression with the same text exactly where no number is
the negative infinity.  The text of that expression is read as it is. -/
theorem render_reread {text : List Char} {e : Expr (Binary f)} (h : Expr.read t text = .ok e) :
    ∃ e', Expr.read t e.render = .ok e' ∧
      (e'.render = e.render ↔ .infinity true ∉ e.numbers) ∧
      Expr.read t e'.render = .ok e' := by
  have hread := read_render_spelling h
  refine ⟨e.subst spelling, hread, render_spelling_eq_iff e, ?_⟩
  rw [read_render_spelling hread, Expr.subst_eq_self]
  intro x hx
  refine spelling_of_ne ?_
  rintro rfl
  exact infinity_notMem_numbers_subst e hx

/-- A product with a factor beyond the largest number: its text does not stay. -/
theorem render_reread_overflow :
    ∃ e e', Expr.read (.arithmetic Double) "-1e999 * -0".toList = .ok e ∧
      e.numbers = [.infinity true, zero true] ∧
      Expr.read (.arithmetic Double) e.render = .ok e' ∧ e'.render ≠ e.render ∧
      Expr.read (.arithmetic Double) e'.render = .ok e' := by
  have hnumbers : (Expr.read (.arithmetic Double) "-1e999 * -0".toList).toOption.map
      Expr.numbers = some [.infinity true, zero true] := by decide +kernel
  obtain ⟨e, hread, he⟩ := exists_ok_of_map hnumbers
  obtain ⟨e', hread', hiff, hagain⟩ := render_reread hread
  refine ⟨e, e', hread, he, hread', ?_, hagain⟩
  intro heq
  exact hiff.mp heq (by simp [he])

/-- Not every canonical text is the text of what it is read as. -/
theorem render_ne_of_overflow :
    ∃ e e', Expr.read (.arithmetic Double) "-1e999".toList = .ok e ∧
      e.render = "-inf".toList ∧ Expr.read (.arithmetic Double) e.render = .ok e' ∧
      e'.render = "-(inf)".toList := by
  have htext : (Expr.read (.arithmetic Double) "-1e999".toList).toOption.map Expr.render =
      some "-inf".toList := by decide +kernel
  have htext' : (Expr.read (.arithmetic Double) "-inf".toList).toOption.map Expr.render =
      some "-(inf)".toList := by decide +kernel
  obtain ⟨e, hread, he⟩ := exists_ok_of_map htext
  obtain ⟨e', hread', he'⟩ := exists_ok_of_map htext'
  exact ⟨e, e', hread, he, by rw [he, hread'], he'⟩

/-- **Reading a canonical text keeps the value** of the expression, or the error that it has in the
place of a value, whatever the operators compute. -/
theorem eval_reread {text : List Char} {e : Expr (Binary f)} (h : Expr.read t text = .ok e) :
    ∃ e', Expr.read t e.render = .ok e' ∧ e'.eval = e.eval :=
  ⟨e.subst spelling, read_render_spelling h, Expr.eval_subst fun x _ => eval_spelling x⟩

/-- A table with an operator that always fails. -/
def refusing : Table Double :=
  .ofList [⟨['@'], BinaryFunction.apply (.fail .arithmetic "refused"), 0, .left⟩]

theorem eval_reread_refusing :
    ∃ e e', Expr.read refusing "1 @ -1e999".toList = .ok e ∧
      e.eval = .error (.arithmetic "refused 1 -inf") ∧
      Expr.read refusing e.render = .ok e' ∧ e'.eval = e.eval := by
  have heval : (Expr.read refusing "1 @ -1e999".toList).toOption.map Expr.eval =
      some (.error (.arithmetic "refused 1 -inf")) := by decide +kernel
  obtain ⟨e, hread, he⟩ := exists_ok_of_map heval
  obtain ⟨e', hread', heval'⟩ := eval_reread hread
  exact ⟨e, e', hread, he, hread', heval'⟩

end InfixCalculator.Binary
