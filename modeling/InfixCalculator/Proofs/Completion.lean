import InfixCalculator.Proofs.RoundTrip.Binary

/-!
# Texts that can be completed

A text can be completed if it becomes an expression with more text after it and a
blank in between.  The reader never looks further than to the end of a run, and
the blank ends all runs, so a run on a text and the runs on its continuations are
the same as far as the text goes.  Either all of them come to its end in the same
state, and from every state there is a way to an expression, or all of them stop
at a fault before it.

* `continued`: a text with more after it, as the reader finds it.
* `atEnd_iff_tellsEnd`: two messages tell that a text ends, and no other fault has them.
* `Continues`, `run_continues`: what a run on a text says of its continuations.
* `exists_completion`: every state leads to an expression.
* `completable_iff_openEnded`: a text can be completed if nothing is wrong with
  it but that it ends.
-/

namespace InfixCalculator

/-! ## A text with more after it -/

/-- A text with a blank and more after it, or only what is left of that after the blanks, where the
reader has come to the end of the text. -/
def continued : List Char → List Char → List Char
  | [], more => dropBlank more
  | c :: rest, more => c :: rest ++ ' ' :: more

theorem dropBlank_append_space (text more : List Char) :
    dropBlank (text ++ ' ' :: more) = continued (dropBlank text) more := by
  obtain ⟨w, hw, htext⟩ := exists_blank_append text
  have hsplit : text ++ ' ' :: more = w ++ (dropBlank text ++ ' ' :: more) := by
    rw [← List.append_assoc, ← htext]
  rw [hsplit, dropBlank_append hw]
  cases hdrop : dropBlank text with
  | nil => exact dropBlank_append blank_space more
  | cons c rest =>
    have hc : isBlank c = false :=
      eq_false_of_mem_head?_dropWhile isBlank text c (by rw [← dropBlank, hdrop]; rfl)
    exact (solid_cons hc rest).dropBlank_append (' ' :: more)

/-- A blank after a text ends its last run. -/
theorem takeWhile_append_space {p : Char → Bool} (hp : p ' ' = false) (text more : List Char) :
    (text ++ ' ' :: more).takeWhile p = text.takeWhile p := by
  rw [List.takeWhile_append]
  split
  · rename_i hlength
    have hall : text.takeWhile p = text := (List.takeWhile_prefix p).eq_of_length hlength
    rw [List.takeWhile_cons_of_neg (Bool.not_eq_true _ ▸ hp), List.append_nil, hall]
  · rfl

theorem continued_of_ne_nil {text : List Char} (hne : text ≠ []) (more : List Char) :
    continued text more = text ++ ' ' :: more := by
  cases text with
  | nil => exact absurd rfl hne
  | cons c rest => rfl

theorem head?_append_space {text : List Char} (hne : text ≠ []) (more : List Char) :
    (text ++ ' ' :: more).head? = text.head? := by
  cases text with
  | nil => exact absurd rfl hne
  | cons c rest => rfl

theorem ne_nil_of_takeWhile {p : Char → Bool} {text : List Char} (h : text.takeWhile p ≠ []) :
    text ≠ [] := by
  rintro rfl
  exact h rfl

/-- What is left after the first run, with more text after it. -/
theorem dropBlank_drop_append_space (p : Char → Bool) (text more : List Char) :
    dropBlank ((text ++ ' ' :: more).drop (text.takeWhile p).length) =
      continued (dropBlank (text.drop (text.takeWhile p).length)) more := by
  rw [List.drop_append_of_le_length (length_takeWhile_le p text), dropBlank_append_space]

/-! ## The messages that a text ends -/

/-- The fault is that the text ends. -/
def Fault.AtEnd (fault : Fault) : Prop := fault = .missingOperand ∨ fault = .unclosed

/-- The message tells that the text ends. -/
def TellsEnd (message : String) : Prop :=
  message = "expected operand, found end of input" ∨ message = "expected ), found end of input"

theorem not_tellsEnd_of_opening {fault : Fault}
    (hoperand : ¬fault.opening.toList <+: "expected operand, found end of input".toList)
    (hclosing : ¬fault.opening.toList <+: "expected ), found end of input".toList) :
    ¬TellsEnd fault.message := by
  have hstart := fault.opening_prefix_message
  rintro (h | h)
  · exact hoperand (h ▸ hstart)
  · exact hclosing (h ▸ hstart)

/-- The message starts like the one of a missing operand, but a single character is found. -/
theorem not_tellsEnd_notAnOperand (found : Char) :
    ¬TellsEnd (Fault.notAnOperand found).message := by
  have hlength : (Fault.notAnOperand found).message.toList.length = 25 := by
    show ("expected operand, found " ++ String.ofList [found]).toList.length = 25
    simp
  rintro (h | h)
  · rw [h] at hlength
    exact absurd hlength (by decide)
  · rw [h] at hlength
    exact absurd hlength (by decide)

theorem Fault.atEnd_iff_tellsEnd (fault : Fault) : fault.AtEnd ↔ TellsEnd fault.message := by
  constructor
  · rintro (rfl | rfl)
    · exact Or.inl rfl
    · exact Or.inr rfl
  · intro h
    cases fault with
    | missingOperand => exact Or.inl rfl
    | unclosed => exact Or.inr rfl
    | notAnOperand found => exact absurd h (not_tellsEnd_notAnOperand found)
    | shortRest count rest =>
      exact absurd h (not_tellsEnd_of_opening (by simp [Fault.opening]) (by simp [Fault.opening]))
    | notANumber literal =>
      exact absurd h (not_tellsEnd_of_opening (by simp [Fault.opening]) (by simp [Fault.opening]))
    | notAnOperation rest =>
      exact absurd h (not_tellsEnd_of_opening (by simp [Fault.opening]) (by simp [Fault.opening]))
    | unknownOperator symbol =>
      exact absurd h (not_tellsEnd_of_opening (by simp [Fault.opening]) (by simp [Fault.opening]))
    | trailing rest =>
      exact absurd h (not_tellsEnd_of_opening (by simp [Fault.opening]) (by simp [Fault.opening]))

/-! ## Runs on a text and on its continuations -/

section Runs

open Reader

variable {α : Type} [Number α] {t : Table α}

/-- What a run on a text says of the runs on its continuations. -/
inductive Continues (t : Table α) (s : State α) (text : List Char) : Prop
  /-- All runs come to the end of the text in the same state. -/
  | reaches (s' : State α) : (run t s text).result = (run t s' []).result →
      (∀ more, (run t s (continued text more)).result = (run t s' (dropBlank more)).result) →
      Continues t s text
  /-- All runs stop before the end of the text. -/
  | stops {fault : Fault} : (run t s text).result = .error fault → ¬fault.AtEnd →
      (∀ more, ∃ fault', (run t s (continued text more)).result = .error fault') →
      Continues t s text

theorem continues_nil (s : State α) : Continues t s [] := .reaches s rfl fun _ => rfl

/-- A step that all runs take. -/
theorem Continues.step {s s' : State α} {text text' : List Char} (h : Continues t s' text')
    (hrun : (run t s text).result = (run t s' text').result)
    (hmore : ∀ more, (run t s (continued text more)).result =
      (run t s' (continued text' more)).result) : Continues t s text := by
  cases h with
  | reaches s'' hend hcontinued =>
    exact .reaches s'' (hrun.trans hend) fun more => (hmore more).trans (hcontinued more)
  | stops hfault hatEnd hcontinued =>
    refine .stops (hrun.trans hfault) hatEnd ?_
    intro more
    obtain ⟨fault', hfault'⟩ := hcontinued more
    exact ⟨fault', (hmore more).trans hfault'⟩

/-! ### Steps on a continuation -/

theorem literalRun_append_space (text more : List Char) :
    literalRun (text ++ ' ' :: more) = literalRun text := takeWhile_append_space rfl text more

theorem operatorRun_append_space (text more : List Char) :
    operatorRun (text ++ ' ' :: more) = operatorRun text := takeWhile_append_space rfl text more

/-- A literal that is no number stays one, but a `-` at the end of a text becomes a sign. -/
theorem run_notANumber_continued {frame : Frame α} {outer : List (Frame α)} {text : List Char}
    (hopening : text.head? ≠ some '(') (hneg : startsNegation text = false)
    (hne : literalRun text ≠ []) (hx : (Number.read? (literalRun text) : Option α) = none)
    (more : List Char) :
    ∃ fault, (run t (.operand frame outer) (continued text more)).result = .error fault := by
  have htext : text ≠ [] := ne_nil_of_takeWhile hne
  rw [continued_of_ne_nil htext]
  by_cases hminus : text = ['-']
  · subst hminus
    rw [List.cons_append, List.nil_append, run_negation frame outer rfl, run_notAnOperand _ _ rfl]
    exact ⟨_, rfl⟩
  · have hopening' : (text ++ ' ' :: more).head? ≠ some '(' := by
      rwa [head?_append_space htext]
    have hneg' : startsNegation (text ++ ' ' :: more) = false := by
      rw [startsNegation_append htext hminus, hneg]
    have hrun := literalRun_append_space text more
    rw [run_notANumber frame outer hopening' hneg' (hrun ▸ hne) (hrun ▸ hx)]
    exact ⟨_, rfl⟩

theorem run_number_continued {frame : Frame α} {outer : List (Frame α)} {text : List Char} {x : α}
    (hopening : text.head? ≠ some '(') (hneg : startsNegation text = false)
    (hne : literalRun text ≠ []) (hx : Number.read? (literalRun text) = some x)
    (hlone : text ≠ ['-']) (more : List Char) :
    run t (.operand frame outer) (continued text more) =
      run t (.operator (frame.complete (.num x)) outer)
        (continued (dropBlank (text.drop (literalRun text).length)) more) := by
  have htext : text ≠ [] := ne_nil_of_takeWhile hne
  have hopening' : (text ++ ' ' :: more).head? ≠ some '(' := by
    rwa [head?_append_space htext]
  have hneg' : startsNegation (text ++ ' ' :: more) = false := by
    rw [startsNegation_append htext hlone, hneg]
  have hrun := literalRun_append_space text more
  rw [continued_of_ne_nil htext, run_number _ _ hopening' hneg' (hrun ▸ hne) (hrun ▸ hx), hrun,
    literalRun, dropBlank_drop_append_space]

theorem run_bound_continued {chain : Grouping α} {outer : List (Frame α)} {text : List Char}
    {op : Operator α} (hne : operatorRun text ≠ []) (hop : t.get? (operatorRun text) = some op)
    (more : List Char) :
    run t (.operator chain outer) (continued text more) =
      (run t (.operand (.after chain op) outer)
        (continued (dropBlank (text.drop (operatorRun text).length)) more)).meet op := by
  have hrun := operatorRun_append_space text more
  rw [continued_of_ne_nil (ne_nil_of_takeWhile hne), run_bound _ _ (hrun ▸ hne) (hrun ▸ hop),
    hrun, operatorRun, dropBlank_drop_append_space]

/-! ### Runs on a continuation -/

/-- **A run on a text tells what the runs on its continuations do.**  If a `-` alone were a number,
it would be one at the end of a text and a sign before a blank. -/
theorem run_continues (hminus : NoLoneMinus α) (s : State α) (text : List Char) :
    Continues t s text := by
  induction s, text using run_induction t with
  | missingOperand frame outer => exact continues_nil _
  | opening frame outer rest ih =>
    refine ih.step (by rw [run_opening]) ?_
    intro more
    rw [continued, List.cons_append, run_opening, dropBlank_append_space]
  | negation frame outer rest hneg ih =>
    refine ih.step (by rw [run_negation _ _ hneg]) ?_
    intro more
    obtain ⟨d, tail, htext, hd⟩ := startsNegation_iff.mp hneg
    cases htext
    have hneg' : startsNegation ('-' :: (d :: tail ++ ' ' :: more)) = true := hneg
    rw [continued, List.cons_append, run_negation _ _ hneg', continued]
  | notAnOperand frame outer c rest hnone =>
    refine .stops (by rw [run_notAnOperand _ _ hnone]; rfl) (by simp [Fault.AtEnd]) ?_
    intro more
    have hnone' : literalRun (c :: (rest ++ ' ' :: more)) = [] :=
      (literalRun_append_space (c :: rest) more).trans hnone
    rw [continued, List.cons_append, run_notAnOperand _ _ hnone']
    exact ⟨_, rfl⟩
  | notANumber frame outer text hopening hneg hne hx =>
    refine .stops (by rw [run_notANumber _ _ hopening hneg hne hx]; rfl)
      (by simp [Fault.AtEnd]) ?_
    exact run_notANumber_continued hopening hneg hne hx
  | number frame outer text x hopening hneg hne hx ih =>
    have hlone : text ≠ ['-'] := by
      rintro rfl
      exact ne_minus_of_read? hminus hx rfl
    refine ih.step (by rw [run_number _ _ hopening hneg hne hx]) ?_
    intro more
    rw [run_number_continued hopening hneg hne hx hlone]
  | complete chain => exact continues_nil _
  | unclosed chain frame outer => exact continues_nil _
  | trailing chain rest =>
    refine .stops (by rw [run_trailing]; rfl) (by simp [Fault.AtEnd]) ?_
    intro more
    rw [continued, List.cons_append, run_trailing]
    exact ⟨_, rfl⟩
  | closing chain frame outer rest ih =>
    refine ih.step (by rw [run_closing]) ?_
    intro more
    rw [continued, List.cons_append, run_closing, dropBlank_append_space]
  | notAnOperation chain outer c rest hc hnone =>
    refine .stops (by rw [run_notAnOperation _ _ hc hnone]; rfl) (by simp [Fault.AtEnd]) ?_
    intro more
    have hnone' : operatorRun (c :: (rest ++ ' ' :: more)) = [] :=
      (operatorRun_append_space (c :: rest) more).trans hnone
    rw [continued, List.cons_append, run_notAnOperation _ _ hc hnone']
    exact ⟨_, rfl⟩
  | unknown chain outer text hne hop =>
    refine .stops (by rw [run_unknown _ _ hne hop]; rfl) (by simp [Fault.AtEnd]) ?_
    intro more
    have hrun := operatorRun_append_space text more
    rw [continued_of_ne_nil (ne_nil_of_takeWhile hne), run_unknown _ _ (hrun ▸ hne) (hrun ▸ hop)]
    exact ⟨_, rfl⟩
  | bound chain outer text op hne hop ih =>
    refine ih.step (by rw [run_bound _ _ hne hop]; rfl) ?_
    intro more
    rw [run_bound_continued hne hop]
    rfl

/-! ## Completions -/

theorem dropBlank_closings (n : Nat) :
    dropBlank (List.replicate n ')') = List.replicate n ')' := by
  cases n with
  | zero => rfl
  | succ n => exact dropBlank_closing _

theorem run_closings (chain : Grouping α) (outer : List (Frame α)) :
    ∃ e, (run t (.operator chain outer) (List.replicate outer.length ')')).result = .ok e := by
  induction outer generalizing chain with
  | nil => exact ⟨chain.toExpr, by rw [List.length_nil, List.replicate_zero, run_operator_nil]; rfl⟩
  | cons frame outer ih =>
    rw [List.length_cons, List.replicate_succ, run_closing, dropBlank_closings]
    exact ih _

/-- **From every state there is a way to an expression**: a number where an operand is due, and a
`)` for every parenthesis that is open. -/
theorem exists_completion {x : α} (hx : Legible x) (s : State α) :
    ∃ more e, (run t s (dropBlank more)).result = .ok e := by
  cases s with
  | operator chain outer =>
    obtain ⟨e, he⟩ := run_closings (t := t) chain outer
    exact ⟨_, e, by rw [dropBlank_closings, he]⟩
  | operand frame outer =>
    have hapart : Apart (List.replicate outer.length ')') := by
      cases outer.length with
      | zero => exact apart_nil
      | succ n => exact apart_closing _
    have hspells : Spells t x (.num x) := hx.spells
    obtain ⟨e, he⟩ := run_closings (t := t) (frame.complete (.num x)) outer
    refine ⟨Number.text x ++ List.replicate outer.length ')', e, ?_⟩
    rw [hspells.solid.dropBlank_append, hspells.reads _ hapart frame outer, dropBlank_closings]
    exact he

theorem run_nil_atEnd (s : State α) :
    (∃ e, (run t s []).result = .ok e) ∨
      ∃ fault, (run t s []).result = .error fault ∧ fault.AtEnd := by
  match s with
  | .operand frame outer =>
    exact Or.inr ⟨_, by rw [run_operand_nil]; rfl, Or.inl rfl⟩
  | .operator chain [] => exact Or.inl ⟨_, by rw [run_operator_nil]; rfl⟩
  | .operator chain (frame :: outer) =>
    exact Or.inr ⟨_, by rw [run_operator_nil_open]; rfl, Or.inr rfl⟩

/-- A text can be completed if it is an expression or its fault is that it ends. -/
theorem exists_read_iff (hminus : NoLoneMinus α) {x : α} (hx : Legible x) (text : List Char) :
    (∃ more e, Expr.read t (text ++ ' ' :: more) = .ok e) ↔
      (∃ e, Expr.read t text = .ok e) ∨
        ∃ fault, Expr.read t text = .error fault ∧ fault.AtEnd := by
  have hread : ∀ more, Expr.read t (text ++ ' ' :: more) =
      (run t (.operand .start []) (continued (dropBlank text) more)).result := by
    intro more
    rw [Expr.read, Reader.read, dropBlank_append_space]
  cases run_continues (t := t) hminus (.operand .start []) (dropBlank text) with
  | reaches s' hend hcontinued =>
    obtain ⟨more, e, he⟩ := exists_completion (t := t) hx s'
    refine ⟨fun _ => ?_, fun _ => ⟨more, e, by rw [hread, hcontinued, he]⟩⟩
    rw [Expr.read, Reader.read, hend]
    exact run_nil_atEnd s'
  | stops hfault hatEnd hcontinued =>
    constructor
    · rintro ⟨more, e, he⟩
      obtain ⟨fault', hfault'⟩ := hcontinued more
      rw [hread, hfault'] at he
      cases he
    · rintro (⟨e, he⟩ | ⟨fault, he, hend⟩)
      · rw [Expr.read, Reader.read, hfault] at he
        cases he
      · rw [Expr.read, Reader.read, hfault] at he
        cases he
        exact absurd hend hatEnd

end Runs

/-! ## Calculators -/

namespace Calculator

variable {α : Type} [Number α]

/-- Some text after it and a blank makes the text an expression. -/
def Completable (c : Calculator α) (text : List Char) : Prop :=
  ∃ more e, c.parse (text ++ ' ' :: more) = .ok e

/-- The text is an expression, or it is refused because it ends. -/
def OpenEnded (c : Calculator α) (text : List Char) : Prop :=
  (∃ e, c.parse text = .ok e) ∨
    ∃ message, TellsEnd message ∧ c.parse text = .error (.parse message)

theorem completable_iff (hminus : NoLoneMinus α) {x : α} (hx : Legible x) (c : Calculator α)
    (text : List Char) : c.Completable text ↔ c.OpenEnded text := by
  have hread := exists_read_iff (t := c.table) hminus hx text
  unfold Completable OpenEnded
  simp only [parse_eq_ok_iff, parse_eq_error_iff]
  rw [hread]
  refine or_congr_right ⟨?_, ?_⟩
  · rintro ⟨fault, hfault, hend⟩
    exact ⟨fault.message, fault.atEnd_iff_tellsEnd.mp hend, fault, hfault, rfl⟩
  · rintro ⟨message, hend, fault, hfault, rfl⟩
    exact ⟨fault, hfault, fault.atEnd_iff_tellsEnd.mpr hend⟩

end Calculator

/-- **A text can be completed exactly if it is an expression or is refused because it ends**,
whatever the table and for integers of any width and binary numbers of any format. -/
theorem completable_iff_openEnded :
    (∀ (width : Nat) (c : Calculator (Signed width)) (text : List Char),
        c.Completable text ↔ c.OpenEnded text) ∧
      ∀ (f : Format) [f.Power] (c : Calculator (Binary f)) (text : List Char),
        c.Completable text ↔ c.OpenEnded text := by
  refine ⟨?_, ?_⟩
  · intro width c text
    exact c.completable_iff (noLoneMinus_signed width) (legible_signed Number.minusOne) text
  · intro f _ c text
    exact c.completable_iff (noLoneMinus_binary f) Binary.legible_nan text

end InfixCalculator
