import InfixCalculator.Proofs.Completion

/-!
# The log of an evaluation

A record is made for an operator when it is met, long before the place of the
operator in the tree is known.  The reader meets the operators from left to right
and never goes back, so for a text that is an expression the records are those of
its operators in their order.  What has been met stays met when the text goes on
after a blank, also if it is no expression.

* `operators_run_prefix`: what a run on a text has met, the runs on its continuations
  have met as well.
* `evaluate_of_ok`, `evaluate_of_error`: evaluations with their logs.
* `traces_eq`: the records for operators are what the reader has met.
* `log_evaluate`: all that the log holds.
-/

namespace InfixCalculator

variable {α : Type} [Number α]

section Runs

open Reader

variable {t : Table α}

/-- At the end of a text nothing is met. -/
theorem operators_run_nil (s : State α) : (run t s []).operators = [] := by
  match s with
  | .operand frame outer => rw [run_operand_nil]; rfl
  | .operator chain [] => rw [run_operator_nil]; rfl
  | .operator chain (frame :: outer) => rw [run_operator_nil_open]; rfl

/-- **What a run has met stays met when the text goes on.**  A `-` at the end of the text may be
read as something else before a blank, but nothing is met after it. -/
theorem operators_run_prefix (s : State α) (text more : List Char) :
    (run t s text).operators <+: (run t s (continued text more)).operators := by
  induction s, text using run_induction t with
  | missingOperand frame outer =>
    rw [operators_run_nil]
    exact List.nil_prefix
  | opening frame outer rest ih =>
    rw [run_opening, continued, List.cons_append, run_opening, dropBlank_append_space]
    exact ih
  | negation frame outer rest hneg ih =>
    obtain ⟨d, tail, htext, hd⟩ := startsNegation_iff.mp hneg
    cases htext
    have hneg' : startsNegation ('-' :: (d :: tail ++ ' ' :: more)) = true := hneg
    rw [run_negation _ _ hneg, continued, List.cons_append, run_negation _ _ hneg']
    exact ih
  | notAnOperand frame outer c rest hnone =>
    rw [run_notAnOperand _ _ hnone]
    exact List.nil_prefix
  | notANumber frame outer text hopening hneg hne hx =>
    rw [run_notANumber _ _ hopening hneg hne hx]
    exact List.nil_prefix
  | number frame outer text x hopening hneg hne hx ih =>
    rw [run_number _ _ hopening hneg hne hx]
    by_cases hlone : text = ['-']
    · have hdrop : text.drop (literalRun text).length = [] := by
        rw [hlone]
        rfl
      have hnil : dropBlank [] = [] := rfl
      rw [hdrop, hnil, operators_run_nil]
      exact List.nil_prefix
    · rw [run_number_continued hopening hneg hne hx hlone]
      exact ih
  | complete chain =>
    rw [operators_run_nil]
    exact List.nil_prefix
  | unclosed chain frame outer =>
    rw [operators_run_nil]
    exact List.nil_prefix
  | trailing chain rest =>
    rw [run_trailing]
    exact List.nil_prefix
  | closing chain frame outer rest ih =>
    rw [run_closing, continued, List.cons_append, run_closing, dropBlank_append_space]
    exact ih
  | notAnOperation chain outer c rest hc hnone =>
    rw [run_notAnOperation _ _ hc hnone]
    exact List.nil_prefix
  | unknown chain outer text hne hop =>
    rw [run_unknown _ _ hne hop]
    exact List.nil_prefix
  | bound chain outer text op hne hop ih =>
    rw [run_bound _ _ hne hop, run_bound_continued hne hop]
    exact List.cons_prefix_cons.mpr ⟨rfl, ih⟩

theorem operators_read_prefix (text more : List Char) :
    (Reader.read t text).operators <+: (Reader.read t (text ++ ' ' :: more)).operators := by
  rw [Reader.read, Reader.read, dropBlank_append_space]
  exact operators_run_prefix _ _ more

/-- A text that is an expression has met its operators from left to right. -/
theorem read_eq_of_ok {text : List Char} {e : Expr α} (h : Expr.read t text = .ok e) :
    Reader.read t text = ⟨e.operators, .ok e⟩ := by
  obtain ⟨g, rfl, _, hreads⟩ := readsChain_of_read h
  exact (hreads [] (.refl [])).read_eq

end Runs

/-! ## Evaluations -/

namespace Calculator

variable {c : Calculator α} {text : List Char}

theorem evaluate_of_ok {e : Expr α} (h : c.parse text = .ok e) :
    c.evaluate text = ⟨e.operators.map Record.ofOperator ++ [.evaluating e.render], e.eval⟩ := by
  rw [evaluate, read_eq_of_ok (parse_eq_ok_iff.mp h)]

theorem evaluate_of_error {error : Error} (h : c.parse text = .error error) :
    c.evaluate text =
      ⟨(Reader.read c.table text).operators.map Record.ofOperator, .error error⟩ := by
  rw [parse, Expr.read] at h
  rw [evaluate]
  cases hresult : (Reader.read c.table text).result with
  | ok e =>
    rw [hresult] at h
    cases h
  | error fault =>
    rw [hresult] at h
    cases h
    rfl

/-- The records for operators. -/
def traces (c : Calculator α) (text : List Char) : List Record :=
  (c.evaluate text).log.filter fun r => r.level = "TRACE"

omit [Number α] in
theorem filter_traces (ops : List (Operator α)) :
    ((ops.map Record.ofOperator).filter fun r => r.level = "TRACE") =
      ops.map Record.ofOperator := by
  rw [List.filter_eq_self]
  intro r hr
  obtain ⟨op, _, rfl⟩ := List.mem_map.mp hr
  rfl

/-- The records for operators are what the reader has met, whether or not the text is an
expression. -/
theorem traces_eq (c : Calculator α) (text : List Char) :
    c.traces text = (Reader.read c.table text).operators.map Record.ofOperator := by
  cases h : c.parse text with
  | ok e =>
    rw [traces, evaluate_of_ok h, read_eq_of_ok (parse_eq_ok_iff.mp h), List.filter_append,
      filter_traces]
    exact List.append_nil _
  | error error => rw [traces, evaluate_of_error h, filter_traces]

/-- **The log of an evaluation is the sequence of the operators of the text.**  An expression leaves
one record for each operator from left to right, with its own priority, and then one for itself,
whatever its value is.  A text that is no expression leaves records for operators only.  The records
for operators stay when the text goes on after a blank. -/
theorem log_evaluate (c : Calculator α) (text : List Char) :
    (∀ e, c.parse text = .ok e →
      (c.evaluate text).result = e.eval ∧
        (c.evaluate text).log.map (fun r => (r.level, r.message)) =
          e.operators.map (fun op => ("TRACE", "operator " ++ String.ofList op.symbol ++
            " with priority " ++ String.ofList (intText op.priority.toInt))) ++
          [("DEBUG", "evaluating " ++ e.string)]) ∧
      (∀ error, c.parse text = .error error →
        (c.evaluate text).result = .error error ∧
          ∀ r ∈ (c.evaluate text).log, r.level = "TRACE") ∧
      ∀ more, c.traces text <+: c.traces (text ++ ' ' :: more) := by
  refine ⟨?_, ?_, ?_⟩
  · intro e h
    rw [evaluate_of_ok h]
    refine ⟨rfl, ?_⟩
    rw [List.map_append, List.map_map]
    rfl
  · intro error h
    rw [evaluate_of_error h]
    refine ⟨rfl, ?_⟩
    intro r hr
    obtain ⟨op, _, rfl⟩ := List.mem_map.mp hr
    rfl
  · intro more
    have hprefix := operators_read_prefix (t := c.table) text more
    have htraces := hprefix.map Record.ofOperator
    rwa [← traces_eq, ← traces_eq] at htraces

/-- `1 + -(2 * 3) / 0` over 8 binary digits. -/
def quotientByZero : Expr (Signed 8) :=
  .bin (.num (.wrap 1)) ⟨['+'], Number.add, 10, .left⟩
    (.bin (.neg (.bin (.num (.wrap 2)) ⟨['*'], Number.mul, 20, .left⟩ (.num (.wrap 3))))
      ⟨['/'], Number.div, 20, .left⟩ (.num (.wrap 0)))

/-- A quotient by zero leaves its operators in their order and the expression.  A parenthesis that
is not closed leaves what was met inside, and so does the text with more after it. -/
theorem log_evaluate_quotientByZero :
    (standard (Signed 8)).parse "1 + -(2 * 3) / 0".toList = .ok quotientByZero ∧
      ((standard (Signed 8)).evaluate "1 + -(2 * 3) / 0".toList).result =
        .error (.arithmetic "division by zero in -6/0") ∧
      ((standard (Signed 8)).evaluate "1 + -(2 * 3) / 0".toList).log.map
          (fun r => (r.level, r.message)) =
        [("TRACE", "operator + with priority 10"), ("TRACE", "operator * with priority 20"),
          ("TRACE", "operator / with priority 20"),
          ("DEBUG", "evaluating (1 + (-((2 * 3)) / 0))")] ∧
      (∃ error, (standard (Signed 8)).parse "(1 + 2".toList = .error error ∧
        ∀ r ∈ ((standard (Signed 8)).evaluate "(1 + 2".toList).log, r.level = "TRACE") ∧
      (standard (Signed 8)).traces "(1 + 2".toList <+:
        (standard (Signed 8)).traces "(1 + 2 ) * 3".toList := by
  have hparse : (standard (Signed 8)).parse "1 + -(2 * 3) / 0".toList = .ok quotientByZero := by
    with_unfolding_all rfl
  obtain ⟨hresult, hlog⟩ := (log_evaluate (standard (Signed 8)) _).1 _ hparse
  refine ⟨hparse, hresult.trans rfl, hlog.trans (by decide +kernel), ?_, ?_⟩
  · have hread : (standard (Signed 8)).parse "(1 + 2".toList =
        .error (.parse "expected ), found end of input") := by
      with_unfolding_all rfl
    exact ⟨_, hread, ((log_evaluate (standard (Signed 8)) _).2.1 _ hread).2⟩
  · exact (log_evaluate (standard (Signed 8)) "(1 + 2".toList).2.2 ") * 3".toList

end Calculator

end InfixCalculator
