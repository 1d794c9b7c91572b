import InfixCalculator.Expr.Reader

/-!
# Steps of the reader

What one step of the reader does, for each kind of piece that can stand at the
start of a text.

* `run_negation`, `run_opening`, `run_number`, `run_literal`: where an operand is due.
* `run_bound`, `run_operator`, `run_closing`: after an operand.
* `run_notANumber`, `run_notAnOperand`, `run_unknown`, `run_notAnOperation`: where it stops.
* `run_induction`: induction along these steps.
-/

namespace InfixCalculator.Reader

variable {α : Type} [Number α] {t : Table α}

/-! ## Where an operand is due -/

theorem run_operand_nil (frame : Frame α) (outer : List (Frame α)) :
    run t (.operand frame outer) [] = .fail .missingOperand := by
  rw [run]

theorem run_opening (frame : Frame α) (outer : List (Frame α)) (rest : List Char) :
    run t (.operand frame outer) ('(' :: rest) =
      run t (.operand .start (frame :: outer)) (dropBlank rest) := by
  rw [run]

theorem run_negation (frame : Frame α) (outer : List (Frame α)) {rest : List Char}
    (h : startsNegation ('-' :: rest) = true) :
    run t (.operand frame outer) ('-' :: rest) = run t (.operand frame.negate outer) rest := by
  rw [run, if_pos h]
  decide

/-- A literal is read as a whole before it is known to be a number. -/
theorem run_literalRun (frame : Frame α) (outer : List (Frame α)) {text : List Char}
    (hopening : text.head? ≠ some '(') (hneg : startsNegation text = false)
    (hne : literalRun text ≠ []) :
    run t (.operand frame outer) text =
      match (Number.read? (literalRun text) : Option α) with
      | none => .fail (.notANumber (literalRun text))
      | some x =>
          run t (.operator (frame.complete (.num x)) outer)
            (dropBlank (text.drop (literalRun text).length)) := by
  cases text with
  | nil => exact absurd rfl hne
  | cons c rest =>
    have hc : c ≠ '(' := by
      rintro rfl
      exact hopening rfl
    rw [run, if_neg (by simp [hneg])]
    · simp only [hne]
      rfl
    · exact hc

theorem run_number (frame : Frame α) (outer : List (Frame α)) {text : List Char} {x : α}
    (hopening : text.head? ≠ some '(') (hneg : startsNegation text = false)
    (hne : literalRun text ≠ []) (hx : Number.read? (literalRun text) = some x) :
    run t (.operand frame outer) text =
      run t (.operator (frame.complete (.num x)) outer)
        (dropBlank (text.drop (literalRun text).length)) := by
  rw [run_literalRun frame outer hopening hneg hne, hx]

theorem run_notANumber (frame : Frame α) (outer : List (Frame α)) {text : List Char}
    (hopening : text.head? ≠ some '(') (hneg : startsNegation text = false)
    (hne : literalRun text ≠ [])
    (hx : (Number.read? (literalRun text) : Option α) = none) :
    run t (.operand frame outer) text = .fail (.notANumber (literalRun text)) := by
  rw [run_literalRun frame outer hopening hneg hne, hx]

theorem run_notAnOperand (frame : Frame α) (outer : List (Frame α)) {c : Char}
    {rest : List Char} (h : literalRun (c :: rest) = []) :
    run t (.operand frame outer) (c :: rest) = .fail (.notAnOperand c) := by
  have hchar : isLiteralChar c = false := by
    cases hc : isLiteralChar c with
    | false => rfl
    | true => simp [literalRun, hc] at h
  have hc : c ≠ '(' := by
    rintro rfl
    cases hchar
  have hneg : startsNegation (c :: rest) = false := by
    have hminus : c ≠ '-' := by
      rintro rfl
      cases hchar
    simp [startsNegation, hminus]
  rw [run, if_neg (by simp [hneg])]
  · simp only [h]
    rfl
  · exact hc

theorem run_literal (frame : Frame α) (outer : List (Frame α)) {literal rest : List Char} {x : α}
    (hne : literal ≠ []) (hrun : literalRun (literal ++ rest) = literal)
    (hopening : literal.head? ≠ some '(') (hneg : startsNegation (literal ++ rest) = false)
    (hx : Number.read? literal = some x) :
    run t (.operand frame outer) (literal ++ rest) =
      run t (.operator (frame.complete (.num x)) outer) (dropBlank rest) := by
  have hhead : (literal ++ rest).head? ≠ some '(' := by
    obtain ⟨c, l, rfl⟩ := List.exists_cons_of_ne_nil hne
    exact hopening
  rw [run_number frame outer hhead hneg (hrun.symm ▸ hne) (hrun.symm ▸ hx), hrun,
    List.drop_left]

/-! ## After an operand -/

theorem run_operator_nil (chain : Grouping α) :
    run t (.operator chain []) [] = .done chain.toExpr := by
  rw [run]
  rfl

theorem run_operator_nil_open (chain : Grouping α) (frame : Frame α) (outer : List (Frame α)) :
    run t (.operator chain (frame :: outer)) [] = .fail .unclosed := by
  rw [run]
  rfl

theorem run_closing (chain : Grouping α) (frame : Frame α) (outer : List (Frame α))
    (rest : List Char) :
    run t (.operator chain (frame :: outer)) (')' :: rest) =
      run t (.operator (frame.complete chain.toExpr) outer) (dropBlank rest) := by
  rw [run]

theorem run_trailing (chain : Grouping α) (rest : List Char) :
    run t (.operator chain []) (')' :: rest) = .fail (.trailing (')' :: rest)) := by
  rw [run]

/-- A symbol is taken as a whole before it is looked up. -/
theorem run_operatorRun (chain : Grouping α) (outer : List (Frame α)) {text : List Char}
    (hne : operatorRun text ≠ []) :
    run t (.operator chain outer) text =
      match t.get? (operatorRun text) with
      | none => .fail (.unknownOperator (operatorRun text))
      | some op =>
          (run t (.operand (.after chain op) outer)
            (dropBlank (text.drop (operatorRun text).length))).meet op := by
  cases text with
  | nil => exact absurd rfl hne
  | cons c rest =>
    have hc : c ≠ ')' := by
      rintro rfl
      exact hne rfl
    rw [run]
    · simp only [hne]
      rfl
    · exact fun _ => hc
    · exact fun _ _ _ => hc

theorem run_bound (chain : Grouping α) (outer : List (Frame α)) {text : List Char}
    {op : Operator α} (hne : operatorRun text ≠ []) (hop : t.get? (operatorRun text) = some op) :
    run t (.operator chain outer) text =
      (run t (.operand (.after chain op) outer)
        (dropBlank (text.drop (operatorRun text).length))).meet op := by
  rw [run_operatorRun chain outer hne, hop]

theorem run_unknown (chain : Grouping α) (outer : List (Frame α)) {text : List Char}
    (hne : operatorRun text ≠ []) (hop : t.get? (operatorRun text) = none) :
    run t (.operator chain outer) text = .fail (.unknownOperator (operatorRun text)) := by
  rw [run_operatorRun chain outer hne, hop]

theorem run_notAnOperation (chain : Grouping α) (outer : List (Frame α)) {c : Char}
    {rest : List Char} (hc : c ≠ ')') (h : operatorRun (c :: rest) = []) :
    run t (.operator chain outer) (c :: rest) = .fail (.notAnOperation (c :: rest)) := by
  rw [run]
  · simp only [h]
    rfl
  · exact fun _ => hc
  · exact fun _ _ _ => hc

theorem run_operator (chain : Grouping α) (outer : List (Frame α)) {symbol rest : List Char}
    {op : Operator α} (hne : symbol ≠ []) (hrun : operatorRun (symbol ++ rest) = symbol)
    (hop : t.get? symbol = some op) :
    run t (.operator chain outer) (symbol ++ rest) =
      (run t (.operand (.after chain op) outer) (dropBlank rest)).meet op := by
  rw [run_bound chain outer (hrun.symm ▸ hne) (hrun.symm ▸ hop), hrun, List.drop_left]

/-! ## Induction along a run -/

/-- Induction along a run, with one case for each kind of step. -/
@[elab_as_elim]
theorem run_induction (t : Table α) {motive : State α → List Char → Prop}
    (missingOperand : ∀ frame outer, motive (.operand frame outer) [])
    (opening : ∀ frame outer rest, motive (.operand .start (frame :: outer)) (dropBlank rest) →
      motive (.operand frame outer) ('(' :: rest))
    (negation : ∀ frame outer rest, startsNegation ('-' :: rest) = true →
      motive (.operand frame.negate outer) rest → motive (.operand frame outer) ('-' :: rest))
    (notAnOperand : ∀ frame outer c rest, literalRun (c :: rest) = [] →
      motive (.operand frame outer) (c :: rest))
    (notANumber : ∀ frame outer text, text.head? ≠ some '(' → startsNegation text = false →
      literalRun text ≠ [] → (Number.read? (literalRun text) : Option α) = none →
      motive (.operand frame outer) text)
    (number : ∀ frame outer text x, text.head? ≠ some '(' → startsNegation text = false →
      literalRun text ≠ [] → Number.read? (literalRun text) = some x →
      motive (.operator (frame.complete (.num x)) outer)
        (dropBlank (text.drop (literalRun text).length)) →
      motive (.operand frame outer) text)
    (complete : ∀ chain, motive (.operator chain []) [])
    (unclosed : ∀ chain frame outer, motive (.operator chain (frame :: outer)) [])
    (trailing : ∀ chain rest, motive (.operator chain []) (')' :: rest))
    (closing : ∀ chain frame outer rest,
      motive (.operator (frame.complete chain.toExpr) outer) (dropBlank rest) →
      motive (.operator chain (frame :: outer)) (')' :: rest))
    (notAnOperation : ∀ chain outer c rest, c ≠ ')' → operatorRun (c :: rest) = [] →
      motive (.operator chain outer) (c :: rest))
    (unknown : ∀ chain outer text, operatorRun text ≠ [] → t.get? (operatorRun text) = none →
      motive (.operator chain outer) text)
    (bound : ∀ chain outer text op, operatorRun text ≠ [] → t.get? (operatorRun text) = some op →
      motive (.operand (.after chain op) outer)
        (dropBlank (text.drop (operatorRun text).length)) →
      motive (.operator chain outer) text)
    (s : State α) (text : List Char) : motive s text := by
  fun_induction run t s text with
  | case1 frame outer => exact missingOperand frame outer
  | case2 frame outer rest ih => exact opening frame outer rest ih
  | case3 frame outer c rest _ hneg ih =>
    have hc : c = '-' := by
      by_cases hc : c = '-'
      · exact hc
      · simp [startsNegation, hc] at hneg
    subst hc
    exact negation frame outer rest hneg ih
  | case4 frame outer c rest _ _ _ hne => exact notAnOperand frame outer c rest hne
  | case5 frame outer c rest hc hneg _ hne hx =>
    have hhead : (c :: rest).head? ≠ some '(' := fun h => hc (Option.some.inj h)
    exact notANumber frame outer _ hhead (Bool.not_eq_true _ ▸ hneg) hne hx
  | case6 frame outer c rest hc hneg _ hne x hx ih =>
    have hhead : (c :: rest).head? ≠ some '(' := fun h => hc (Option.some.inj h)
    exact number frame outer _ x hhead (Bool.not_eq_true _ ▸ hneg) hne hx ih
  | case7 chain outer houter =>
    cases outer with
    | nil => exact complete chain
    | cons frame outer => cases houter
  | case8 chain outer houter =>
    cases outer with
    | nil => exact absurd rfl houter
    | cons frame outer => exact unclosed chain frame outer
  | case9 chain rest => exact trailing chain rest
  | case10 chain frame outer rest ih => exact closing chain frame outer rest ih
  | case11 chain outer c rest h1 h2 _ hne =>
    have hc : c ≠ ')' := by
      cases outer with
      | nil => exact h1 rfl
      | cons frame outer => exact h2 frame outer rfl
    exact notAnOperation chain outer c rest hc hne
  | case12 chain outer c rest _ _ _ hne hop => exact unknown chain outer _ hne hop
  | case13 chain outer c rest _ _ _ hne op hop ih => exact bound chain outer _ op hne hop ih

end InfixCalculator.Reader
