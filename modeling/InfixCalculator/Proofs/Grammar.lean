import InfixCalculator.Calculator
import InfixCalculator.Proofs.Reading

/-!
# The grammar of expressions

With `w` for blanks, an expression is `w Operand w (Op w Operand w)*`, and an
operand is a literal, a `-` and an operand, or an expression in parentheses.
Literals and operators are maximal runs, so a phrase derives in the context of
the text after it: `Derives t p text rest` says that `text` is a phrase of kind
`p` with `rest` after it.

* `Derives.reads`: what the grammar derives, the reader reads, also before another
  text that `Follows`.
* `Awaits`: what the parentheses that are open demand of the text after an operand.
* `demands_of_run`: an accepting run has a derivation behind it.
* `parse_ok_iff_derives`: the reader accepts the texts of the grammar and no others.
-/

namespace InfixCalculator

variable {α : Type} [Number α] {t : Table α}

/-- The kinds of phrases. -/
inductive Phrase
  | expr
  | operand
  /-- `(Op w Operand w)*` -/
  | operations

/-- `text` is a phrase with `rest` after it. -/
inductive Derives (t : Table α) : Phrase → List Char → List Char → Prop
  | expr {v w text after rest : List Char} : Blank v → Derives t .operand text (w ++ after) →
      Blank w → Derives t .operations after rest → Derives t .expr (v ++ text) rest
  /-- A `-` is a sign of its own if a character other than a digit follows it. -/
  | negation {c : Char} {text rest : List Char} : c.isDigit = false →
      Derives t .operand (c :: text) rest → Derives t .operand ('-' :: c :: text) rest
  | group {text rest : List Char} : Derives t .expr text (')' :: rest) →
      Derives t .operand ('(' :: text) rest
  | literal {literal rest : List Char} {x : α} : literal ≠ [] →
      Maximal isLiteralChar literal rest → literal.head? ≠ some '(' →
      (¬∃ c after, literal ++ rest = '-' :: c :: after ∧ c.isDigit = false) →
      Number.read? literal = some x → Derives t .operand (literal ++ rest) rest
  | done {rest : List Char} : Derives t .operations rest rest
  | operation {symbol v w text after rest : List Char} {op : Operator α} : symbol ≠ [] →
      Maximal isOperatorChar symbol (v ++ text) → t.get? symbol = some op → Blank v →
      Derives t .operand text (w ++ after) → Blank w → Derives t .operations after rest →
      Derives t .operations (symbol ++ v ++ text) rest

/-! ## What is derived is read -/

/-- No number is written as a `-` alone. -/
def NoLoneMinus (α : Type) [Number α] : Prop := (Number.read? ['-'] : Option α) = none

theorem noLoneMinus_signed (width : Nat) : NoLoneMinus (Signed width) := rfl

theorem noLoneMinus_binary (f : Format) [f.Power] : NoLoneMinus (Binary f) := rfl

/-- A text in the place of the one after a phrase: it begins in the same way, or it keeps apart from
the phrase and a `-` at the end of the phrase is no number. -/
def Follows (α : Type) [Number α] (rest rest' : List Char) : Prop :=
  rest'.head? = rest.head? ∨ NoLoneMinus α ∧ Apart rest'

theorem Follows.refl (rest : List Char) : Follows α rest rest := Or.inl rfl

theorem Follows.append {rest rest' : List Char} (h : Follows α rest rest') (u : List Char) :
    Follows α (u ++ rest) (u ++ rest') := by
  cases u with
  | nil => exact h
  | cons c u => exact Or.inl rfl

theorem Follows.maximal {literal rest rest' : List Char} (h : Follows α rest rest')
    (hmax : Maximal isLiteralChar literal rest) : Maximal isLiteralChar literal rest' := by
  rcases h with h | ⟨_, h⟩
  · exact hmax.congr h
  · exact ⟨hmax.all, h⟩

/-- A literal of two characters has its sign decided in itself. -/
theorem startsNegation_append {literal : List Char} (hne : literal ≠ [])
    (hminus : literal ≠ ['-']) (rest : List Char) :
    startsNegation (literal ++ rest) = startsNegation literal := by
  match literal, hne with
  | [c], _ =>
    have hc : c ≠ '-' := by
      rintro rfl
      exact hminus rfl
    simp [startsNegation, hc]
  | c :: d :: l, _ =>
    by_cases hc : c = '-'
    · subst hc
      rfl
    · simp [startsNegation, hc]

theorem ne_minus_of_read? (hminus : NoLoneMinus α) {literal : List Char} {x : α}
    (hx : Number.read? literal = some x) : literal ≠ ['-'] := by
  rintro rfl
  rw [hminus] at hx
  cases hx

theorem Follows.startsNegation_eq {literal rest rest' : List Char} {x : α}
    (h : Follows α rest rest') (hne : literal ≠ []) (hx : Number.read? literal = some x) :
    startsNegation (literal ++ rest') = startsNegation (literal ++ rest) := by
  rcases h with h | ⟨hminus, _⟩
  · by_cases hlone : literal = ['-']
    · subst hlone
      cases rest with
      | nil => rw [List.head?_eq_none_iff.mp h]
      | cons c rest =>
        obtain ⟨tail, rfl⟩ := List.head?_eq_some_iff.mp h
        rfl
    · rw [startsNegation_append hne hlone, startsNegation_append hne hlone]
  · have hlone := ne_minus_of_read? hminus hx
    rw [startsNegation_append hne hlone, startsNegation_append hne hlone]

/-- What reading a phrase amounts to, whatever comes after it. -/
def Reads (t : Table α) (text rest : List Char) : Phrase → Prop
  | .operand => ∃ w e, text = w ++ rest ∧ Solid w ∧ t.Binds e.operators ∧
      ∀ rest', Follows α rest rest' → ReadsOperand t w e rest'
  | .operations => ∃ w links, text = w ++ rest ∧ t.Binds (operatorsOfLinks links) ∧
      ∀ rest', Follows α rest rest' → ReadsOperations t w links rest'
  | .expr => ∃ w g, text = w ++ rest ∧ t.Binds g.toExpr.operators ∧
      ∀ rest', Follows α rest rest' → ReadsChain t w g rest'

theorem Derives.reads {p : Phrase} {text rest : List Char} (h : Derives t p text rest) :
    Reads t text rest p := by
  induction h with
  | @expr v w text after rest hv _ hw _ ihx ihu =>
    obtain ⟨x, e, rfl, hx, hbx, hrx⟩ := ihx
    obtain ⟨u, links, rfl, hbu, hru⟩ := ihu
    refine ⟨v ++ x ++ (w ++ u), (Grouping.atom e).attachAll links, by simp, ?_, ?_⟩
    · rw [Grouping.operators_attachAll]
      exact Table.binds_append.mpr ⟨hbx, hbu⟩
    · intro rest' hrest
      refine (hrx (w ++ u ++ rest') ?_).chain ((hru rest' hrest).blank hw) hv hx
      rw [← List.append_assoc w]
      exact hrest.append (w ++ u)
  | @negation c text rest hc _ ih =>
    obtain ⟨w, e, hw, hsolid, hb, hr⟩ := ih
    refine ⟨'-' :: w, .neg e, by rw [List.cons_append, ← hw], solid_cons (by decide) w, hb, ?_⟩
    intro rest' hrest
    refine (hr rest' hrest).neg ?_
    obtain ⟨d, hd, _⟩ := hsolid
    cases w with
    | nil => cases hd
    | cons a w =>
      cases hw
      simp [startsNegation, hc]
  | @group text rest _ ih =>
    obtain ⟨w, g, rfl, hb, hr⟩ := ih
    refine ⟨'(' :: (w ++ [')']), g.toExpr, by simp, solid_cons (by decide) _, hb, ?_⟩
    intro rest' _
    exact (hr (')' :: rest') (Or.inl rfl)).group
  | @literal literal rest x hne hmax hopening hneg hx =>
    obtain ⟨c, l, rfl⟩ := List.exists_cons_of_ne_nil hne
    have hc : isLiteralChar c = true := hmax.all c (by simp)
    refine ⟨c :: l, .num x, rfl, solid_cons (isBlank_of_isLiteralChar hc) l, ?_, ?_⟩
    · intro op hop
      cases hop
    · intro rest' hrest
      have hneg' : startsNegation ((c :: l) ++ rest') = false := by
        rw [hrest.startsNegation_eq hne hx, ← Bool.not_eq_true, startsNegation_iff]
        exact hneg
      exact readsOperand_literal hne (hrest.maximal hmax) hopening hneg' hx
  | @done rest =>
    refine ⟨[], [], rfl, ?_, fun rest' _ => readsOperations_nil rest'⟩
    intro op hop
    cases hop
  | @operation symbol v w text after rest op hne hmax hop hv _ hw _ ihx ihu =>
    obtain ⟨x, e, rfl, hx, hbx, hrx⟩ := ihx
    obtain ⟨u, links, rfl, hbu, hru⟩ := ihu
    have hsymbol : op.symbol = symbol := Table.symbol_of_get? hop
    refine ⟨symbol ++ v ++ x ++ (w ++ u), (op, e) :: links, by simp, ?_, ?_⟩
    · have hbound : t.get? op.symbol = some op ∧ Usable op.symbol := by
        rw [hsymbol]
        exact ⟨hop, hne, hmax.all⟩
      exact Table.binds_cons.mpr ⟨hbound, Table.binds_append.mpr ⟨hbx, hbu⟩⟩
    · intro rest' hrest
      refine ((hru rest' hrest).blank hw).cons (hrx (w ++ u ++ rest') ?_) hne ?_ hop hv hx
      · rw [← List.append_assoc w]
        exact hrest.append (w ++ u)
      · refine hmax.congr ?_
        cases v with
        | nil =>
          simp only [List.nil_append, List.append_assoc]
          rw [hx.head?_append, hx.head?_append]
        | cons c v => rfl

/-! ## What is read is derived -/

/-- What open parentheses demand of the text after an operand: operations and a `)` for each of
them, then operations to the end. -/
def Awaits (t : Table α) : Nat → List Char → Prop
  | 0, text => ∃ w after, text = w ++ after ∧ Blank w ∧ Derives t .operations after []
  | n + 1, text => ∃ w after rest, text = w ++ after ∧ Blank w ∧
      Derives t .operations after (')' :: rest) ∧ Awaits t n rest

theorem awaits_iff (n : Nat) (text : List Char) :
    Awaits t n text ↔ ∃ w after rest, text = w ++ after ∧ Blank w ∧
      Derives t .operations after rest ∧
        match n with
        | 0 => rest = []
        | n + 1 => ∃ rest', rest = ')' :: rest' ∧ Awaits t n rest' := by
  cases n with
  | zero =>
    constructor
    · rintro ⟨w, after, htext, hw, h⟩
      exact ⟨w, after, [], htext, hw, h, rfl⟩
    · rintro ⟨w, after, _, htext, hw, h, rfl⟩
      exact ⟨w, after, htext, hw, h⟩
  | succ n =>
    constructor
    · rintro ⟨w, after, rest, htext, hw, h, hrest⟩
      exact ⟨w, after, _, htext, hw, h, rest, rfl, hrest⟩
    · rintro ⟨w, after, _, htext, hw, h, rest, rfl, hrest⟩
      exact ⟨w, after, rest, htext, hw, h, hrest⟩

theorem awaits_nil : Awaits t 0 [] := ⟨[], [], rfl, blank_nil, .done⟩

theorem Awaits.blank {n : Nat} {text : List Char} (h : Awaits t n (dropBlank text)) :
    Awaits t n text := by
  obtain ⟨v, hv, htext⟩ := exists_blank_append text
  obtain ⟨w, after, rest, hafter, hw, hd, hn⟩ := (awaits_iff n _).mp h
  refine (awaits_iff n text).mpr ⟨v ++ w, after, rest, ?_, ?_, hd, hn⟩
  · rw [List.append_assoc, ← hafter, ← htext]
  · intro c hc
    exact (List.mem_append.mp hc).elim (hv c) (hw c)

theorem Awaits.closing {n : Nat} {rest : List Char} (h : Awaits t n rest) :
    Awaits t (n + 1) (')' :: rest) := ⟨[], _, rest, rfl, blank_nil, .done, h⟩

theorem Awaits.operation {n : Nat} {symbol v text after : List Char} {op : Operator α}
    (hne : symbol ≠ []) (hmax : Maximal isOperatorChar symbol (v ++ text))
    (hop : t.get? symbol = some op) (hv : Blank v) (hx : Derives t .operand text after)
    (h : Awaits t n after) : Awaits t n (symbol ++ v ++ text) := by
  obtain ⟨w, u, rest, rfl, hw, hd, hn⟩ := (awaits_iff n after).mp h
  exact (awaits_iff n _).mpr
    ⟨[], _, rest, rfl, blank_nil, .operation hne hmax hop hv hx hw hd, hn⟩

/-- What the reader demands in a state of the text that is left. -/
def Demands (t : Table α) : Reader.State α → List Char → Prop
  | .operand _ outer, text => ∃ rest, Derives t .operand text rest ∧ Awaits t outer.length rest
  | .operator _ outer, text => Awaits t outer.length text

theorem demands_opening {frame : Frame α} {outer : List (Frame α)} {rest : List Char}
    (h : Demands t (.operand .start (frame :: outer)) (dropBlank rest)) :
    Demands t (.operand frame outer) ('(' :: rest) := by
  obtain ⟨after, hx, w, u, rest', hafter, hw, hd, hn⟩ := h
  obtain ⟨v, hv, htext⟩ := exists_blank_append rest
  refine ⟨rest', .group ?_, hn⟩
  rw [htext]
  exact .expr hv (hafter ▸ hx) hw hd

theorem demands_negation {frame : Frame α} {outer : List (Frame α)} {c : Char}
    {rest : List Char} (hneg : startsNegation (c :: rest) = true)
    (h : Demands t (.operand frame.negate outer) rest) :
    Demands t (.operand frame outer) (c :: rest) := by
  obtain ⟨after, hx, hn⟩ := h
  obtain ⟨d, tail, htext, hd⟩ := startsNegation_iff.mp hneg
  cases htext
  exact ⟨after, .negation hd hx, hn⟩

theorem demands_literal {frame frame' : Frame α} {outer : List (Frame α)} {x : α} {e : Expr α}
    {text : List Char} (hopening : text.head? ≠ some '(') (hneg : startsNegation text = false)
    (hne : literalRun text ≠ []) (hx : Number.read? (literalRun text) = some x)
    (h : Demands t (.operator (frame'.complete e) outer)
      (dropBlank (text.drop (literalRun text).length))) :
    Demands t (.operand frame outer) text := by
  have htext : literalRun text ++ text.drop (literalRun text).length = text :=
    takeWhile_append_drop isLiteralChar text
  refine ⟨text.drop (literalRun text).length, ?_, Awaits.blank h⟩
  have hlit : Derives t .operand
      (literalRun text ++ text.drop (literalRun text).length)
      (text.drop (literalRun text).length) := by
    refine .literal hne (maximal_takeWhile isLiteralChar text) ?_ ?_ hx
    · intro hhead
      apply hopening
      rw [← htext, List.head?_append, hhead]
      rfl
    · rw [htext, ← startsNegation_iff, hneg]
      decide
  rwa [htext] at hlit

theorem demands_operator {chain g : Grouping α} {outer : List (Frame α)} {op : Operator α}
    {text : List Char} (hne : operatorRun text ≠ []) (hop : t.get? (operatorRun text) = some op)
    (h : Demands t (.operand (.after g op) outer)
      (dropBlank (text.drop (operatorRun text).length))) :
    Demands t (.operator chain outer) text := by
  have htext : operatorRun text ++ text.drop (operatorRun text).length = text :=
    takeWhile_append_drop isOperatorChar text
  obtain ⟨after, hx, hn⟩ := h
  obtain ⟨v, hv, hrest⟩ := exists_blank_append (text.drop (operatorRun text).length)
  have hmax : Maximal isOperatorChar (operatorRun text)
      (v ++ dropBlank (text.drop (operatorRun text).length)) := by
    rw [← hrest]
    exact maximal_takeWhile isOperatorChar text
  have hawaits := Awaits.operation hne hmax hop hv hx hn
  rw [List.append_assoc, ← hrest, htext] at hawaits
  exact hawaits

/-- **An accepting run has a derivation behind it**, whatever the state it starts in. -/
theorem demands_of_run (s : Reader.State α) (text : List Char) {e : Expr α} :
    (Reader.run t s text).result = .ok e → Demands t s text := by
  fun_induction Reader.run t s text with
  | case2 frame outer rest ih =>
    intro h
    exact demands_opening (ih h)
  | case3 frame outer c rest _ hneg ih =>
    intro h
    exact demands_negation hneg (ih h)
  | case6 frame outer c rest hc hneg literal hne x hx ih =>
    intro h
    refine demands_literal ?_ (Bool.not_eq_true _ ▸ hneg) hne hx (ih h)
    intro hhead
    exact hc (Option.some.inj hhead)
  | case7 chain outer houter =>
    intro _
    rw [List.isEmpty_iff.mp houter]
    exact awaits_nil
  | case10 chain frame outer rest ih =>
    intro h
    exact (ih h).blank.closing
  | case13 chain outer c rest _ _ symbol hne op hop ih =>
    intro h
    exact demands_operator hne hop (ih h)
  | _ =>
    -- the other steps report a fault
    intro h
    cases h

theorem derives_of_read {text : List Char} {e : Expr α} (h : Expr.read t text = .ok e) :
    Derives t .expr text [] := by
  obtain ⟨rest, hx, w, after, rfl, hw, hd⟩ := demands_of_run _ _ h
  obtain ⟨v, hv, htext⟩ := exists_blank_append text
  rw [htext]
  exact .expr hv hx hw hd

theorem Derives.readsChain {text : List Char} (h : Derives t .expr text []) :
    ∃ g : Grouping α, t.Binds g.toExpr.operators ∧
      ∀ rest, Follows α [] rest → ReadsChain t text g rest := by
  obtain ⟨w, g, htext, hb, hr⟩ := h.reads
  rw [List.append_nil] at htext
  subst htext
  exact ⟨g, hb, hr⟩

/-- A text that is accepted is read in the same way before other texts. -/
theorem readsChain_of_read {text : List Char} {e : Expr α} (h : Expr.read t text = .ok e) :
    ∃ g : Grouping α, g.toExpr = e ∧ t.Binds g.toExpr.operators ∧
      ∀ rest, Follows α [] rest → ReadsChain t text g rest := by
  obtain ⟨g, hb, hr⟩ := (derives_of_read h).readsChain
  have hread : Expr.read t text = .ok g.toExpr := (hr [] (.refl [])).expr_read_eq
  rw [h] at hread
  exact ⟨g, (Except.ok.inj hread).symm, hb, hr⟩

/-- The operators of an expression that was read are those of the table. -/
theorem binds_of_read {text : List Char} {e : Expr α} (h : Expr.read t text = .ok e) :
    t.Binds e.operators := by
  obtain ⟨g, rfl, hb, _⟩ := readsChain_of_read h
  exact hb

/-! ## Acceptance -/

/-- **The reader accepts exactly the texts of the grammar**, and every other text is reported as
text that could not be read. -/
theorem parse_ok_iff_derives (c : Calculator α) (text : List Char) :
    ((∃ e, c.parse text = .ok e) ↔ Derives c.table .expr text []) ∧
      (¬Derives c.table .expr text [] →
        ∃ error, c.parse text = .error error ∧ error.kind = .parse) := by
  have hiff : (∃ e, Expr.read c.table text = .ok e) ↔ Derives c.table .expr text [] := by
    constructor
    · rintro ⟨e, h⟩
      exact derives_of_read h
    · intro h
      obtain ⟨g, _, hr⟩ := h.readsChain
      exact ⟨_, (hr [] (.refl [])).expr_read_eq⟩
  cases h : Expr.read c.table text with
  | ok e =>
    have hd : Derives c.table .expr text [] := hiff.mp ⟨e, h⟩
    refine ⟨⟨fun _ => hd, fun _ => ⟨e, Calculator.parse_eq_ok_iff.mpr h⟩⟩, ?_⟩
    intro hn
    exact absurd hd hn
  | error fault =>
    have hparse := Calculator.parse_of_error h
    have hd : ¬Derives c.table .expr text [] := by
      intro hd
      obtain ⟨e, he⟩ := hiff.mpr hd
      rw [h] at he
      cases he
    refine ⟨⟨?_, fun hd' => absurd hd' hd⟩, fun _ => ⟨_, hparse, Fault.kind_toError fault⟩⟩
    rintro ⟨e, he⟩
    rw [hparse] at he
    cases he

/-- A `-` after a blank is a sign, and one after a `*` is a part of the symbol. -/
theorem parse_ok_iff_derives_sign :
    Derives (.arithmetic (Signed 8)) .expr "-(1) * -2".toList [] ∧
      ¬Derives (.arithmetic (Signed 8)) .expr "-(1) *-2".toList [] := by
  have hiff := fun text => (parse_ok_iff_derives (Calculator.standard (Signed 8)) text).1
  have hunknown : Expr.read (.arithmetic (Signed 8)) "-(1) *-2".toList =
      .error (.unknownOperator ['*', '-']) := by with_unfolding_all rfl
  refine ⟨(hiff _).mp ⟨_, by with_unfolding_all rfl⟩, ?_⟩
  intro hd
  obtain ⟨e, he⟩ := (hiff _).mpr hd
  change (Expr.read (.arithmetic (Signed 8)) _).mapError Fault.toError = .ok e at he
  rw [hunknown] at he
  cases he

end InfixCalculator
