import InfixCalculator.Proofs.Reading
import Mathlib.Data.List.Forall2
import Mathlib.Data.Option.Basic

/-!
# Readers in step

Which step a reader takes is told by the text and by the symbols of its table.
Two readers whose tables bind the same symbols take the same steps, so whatever
their operators, expressions and chains have in common, and every step keeps,
they have in common at the end.

* `Lockstep`: what two readers have in common and every step keeps.
* `Lockstep.run`: two readers in related states end alike; `Lockstep.read_cases`: on a text.
* `Operator.Alike`, `Expr.Rel`: operators that group alike, and the same tree with
  related operators.
* `read_rel`: tables whose operators are alike read the same trees.
-/

namespace InfixCalculator

variable {α : Type}

theorem usable_operatorRun {text : List Char} (hne : operatorRun text ≠ []) :
    Usable (operatorRun text) := ⟨hne, fun _ hc => List.mem_takeWhile_imp hc⟩

/-- What two readers have in common: a relation of their operators, one of their expressions and one
of their chains, which every step keeps. -/
structure Lockstep (t t' : Table α) (O : Operator α → Operator α → Prop)
    (E : Expr α → Expr α → Prop) (G : Grouping α → Grouping α → Prop) : Prop where
  get? : ∀ symbol, Usable symbol → Option.Rel O (t.get? symbol) (t'.get? symbol)
  num : ∀ x, E (.num x) (.num x)
  neg : ∀ {e e'}, E e e' → E (.neg e) (.neg e')
  atom : ∀ {e e'}, E e e' → G (.atom e) (.atom e')
  attach : ∀ {g g' op op' e e'}, G g g' → O op op' → E e e' →
    G (g.attach op e) (g'.attach op' e')
  toExpr : ∀ {g g'}, G g g' → E g.toExpr g'.toExpr

section States

variable (O : Operator α → Operator α → Prop) (E : Expr α → Expr α → Prop)
  (G : Grouping α → Grouping α → Prop)

/-- Two chains that wait for an operand, related as far as they have been read. -/
inductive Frame.Rel : Frame α → Frame α → Prop
  | first (minuses : Nat) : Rel ⟨none, minuses⟩ ⟨none, minuses⟩
  | next {g g' : Grouping α} {op op' : Operator α} (minuses : Nat) : G g g' → O op op' →
      Rel ⟨some (g, op), minuses⟩ ⟨some (g', op'), minuses⟩

/-- Two readers at the same place, with related chains. -/
inductive Reader.State.Rel : Reader.State α → Reader.State α → Prop
  | operand {f f' : Frame α} {outer outer' : List (Frame α)} : f.Rel O G f' →
      List.Forall₂ (Frame.Rel O G) outer outer' → Rel (.operand f outer) (.operand f' outer')
  | operator {g g' : Grouping α} {outer outer' : List (Frame α)} : G g g' →
      List.Forall₂ (Frame.Rel O G) outer outer' → Rel (.operator g outer) (.operator g' outer')

/-- Related operators were met, and there is the same fault or there are related expressions. -/
inductive Reading.Rel : Reading α → Reading α → Prop
  | fail {ops ops' : List (Operator α)} (fault : Fault) : List.Forall₂ O ops ops' →
      Rel ⟨ops, .error fault⟩ ⟨ops', .error fault⟩
  | done {ops ops' : List (Operator α)} {e e' : Expr α} : List.Forall₂ O ops ops' → E e e' →
      Rel ⟨ops, .ok e⟩ ⟨ops', .ok e'⟩

end States

section Run

variable {O : Operator α → Operator α → Prop} {E : Expr α → Expr α → Prop}
  {G : Grouping α → Grouping α → Prop}

theorem Frame.Rel.negate {f f' : Frame α} (h : f.Rel O G f') : f.negate.Rel O G f'.negate := by
  cases h with
  | first n => exact .first (n + 1)
  | next n hg hop => exact .next (n + 1) hg hop

theorem Reading.Rel.meet {r r' : Reading α} (h : r.Rel O E r') {op op' : Operator α}
    (hop : O op op') : (r.meet op).Rel O E (r'.meet op') := by
  cases h with
  | fail fault hops => exact .fail fault (.cons hop hops)
  | done hops he => exact .done (.cons hop hops) he

namespace Lockstep

variable {t t' : Table α} (h : Lockstep t t' O E G)
include h

theorem repeat_neg {e e' : Expr α} (he : E e e') (n : Nat) :
    E (n.repeat Expr.neg e) (n.repeat Expr.neg e') := by
  induction n with
  | zero => exact he
  | succ n ih => exact h.neg ih

theorem complete {f f' : Frame α} (hf : f.Rel O G f') {e e' : Expr α} (he : E e e') :
    G (f.complete e) (f'.complete e') := by
  cases hf with
  | first n => exact h.atom (h.repeat_neg he n)
  | next n hg hop => exact h.attach hg hop (h.repeat_neg he n)

open Reader in
/-- **Readers in related states end alike.** -/
theorem run [Number α] (s : State α) (text : List Char) :
    ∀ s' : State α, s.Rel O G s' → (run t s text).Rel O E (run t' s' text) := by
  induction s, text using run_induction t with
  | missingOperand frame outer =>
    rintro _ (⟨hf, ho⟩ | _)
    rw [run_operand_nil, run_operand_nil]
    exact .fail .missingOperand .nil
  | opening frame outer rest ih =>
    rintro _ (⟨hf, ho⟩ | _)
    rw [run_opening, run_opening]
    exact ih _ (.operand (.first 0) (.cons hf ho))
  | negation frame outer rest hneg ih =>
    rintro _ (⟨hf, ho⟩ | _)
    rw [run_negation _ _ hneg, run_negation _ _ hneg]
    exact ih _ (.operand hf.negate ho)
  | notAnOperand frame outer c rest hnone =>
    rintro _ (⟨hf, ho⟩ | _)
    rw [run_notAnOperand _ _ hnone, run_notAnOperand _ _ hnone]
    exact .fail (.notAnOperand c) .nil
  | notANumber frame outer text hopening hneg hne hx =>
    rintro _ (⟨hf, ho⟩ | _)
    rw [run_notANumber _ _ hopening hneg hne hx, run_notANumber _ _ hopening hneg hne hx]
    exact .fail (.notANumber (literalRun text)) .nil
  | number frame outer text x hopening hneg hne hx ih =>
    rintro _ (⟨hf, ho⟩ | _)
    rw [run_number _ _ hopening hneg hne hx, run_number _ _ hopening hneg hne hx]
    exact ih _ (.operator (h.complete hf (h.num x)) ho)
  | complete chain =>
    rintro _ (_ | ⟨hg, ho⟩)
    cases ho
    rw [run_operator_nil, run_operator_nil]
    exact .done .nil (h.toExpr hg)
  | unclosed chain frame outer =>
    rintro _ (_ | ⟨hg, ho⟩)
    cases ho
    rw [run_operator_nil_open, run_operator_nil_open]
    exact .fail .unclosed .nil
  | trailing chain rest =>
    rintro _ (_ | ⟨hg, ho⟩)
    cases ho
    rw [run_trailing, run_trailing]
    exact .fail (.trailing (')' :: rest)) .nil
  | closing chain frame outer rest ih =>
    rintro _ (_ | ⟨hg, _ | ⟨hf, ho⟩⟩)
    rw [run_closing, run_closing]
    exact ih _ (.operator (h.complete hf (h.toExpr hg)) ho)
  | notAnOperation chain outer c rest hc hnone =>
    rintro _ (_ | ⟨hg, ho⟩)
    rw [run_notAnOperation _ _ hc hnone, run_notAnOperation _ _ hc hnone]
    exact .fail (.notAnOperation (c :: rest)) .nil
  | unknown chain outer text hne hop =>
    rintro _ (_ | ⟨hg, ho⟩)
    have hget := h.get? _ (usable_operatorRun hne)
    generalize hop' : t'.get? (operatorRun text) = found at hget
    rw [hop] at hget
    cases hget
    rw [run_unknown _ _ hne hop, run_unknown _ _ hne hop']
    exact .fail (.unknownOperator (operatorRun text)) .nil
  | bound chain outer text op hne hop ih =>
    rintro _ (_ | ⟨hg, ho⟩)
    have hget := h.get? _ (usable_operatorRun hne)
    generalize hop' : t'.get? (operatorRun text) = found at hget
    rw [hop] at hget
    cases hget with
    | some hrel =>
      rw [run_bound _ _ hne hop, run_bound _ _ hne hop']
      exact (ih _ (.operand (.next 0 hg hrel) ho)).meet hrel

theorem read [Number α] (text : List Char) :
    (Reader.read t text).Rel O E (Reader.read t' text) :=
  h.run _ _ _ (.operand (.first 0) .nil)

/-- The same fault, or related expressions. -/
theorem read_cases [Number α] (text : List Char) :
    (∃ fault, Expr.read t text = .error fault ∧ Expr.read t' text = .error fault) ∨
      ∃ e e', Expr.read t text = .ok e ∧ Expr.read t' text = .ok e' ∧ E e e' := by
  have hread := h.read text
  unfold Expr.read
  generalize Reader.read t text = r at hread
  generalize Reader.read t' text = r' at hread
  cases hread with
  | fail fault _ => exact Or.inl ⟨fault, rfl, rfl⟩
  | done _ he => exact Or.inr ⟨_, _, rfl, rfl, he⟩

end Lockstep

end Run

/-! ## The same trees -/

/-- The same symbol, and the same place among other operators. -/
structure Operator.Alike (a b : Operator α) : Prop where
  symbol_eq : a.symbol = b.symbol
  priority_eq : a.priority = b.priority
  associativity_eq : a.associativity = b.associativity

theorem Operator.Alike.yieldsTo_eq {a a' b b' : Operator α} (ha : a.Alike a') (hb : b.Alike b') :
    a.yieldsTo b = a'.yieldsTo b' := by
  rw [yieldsTo, yieldsTo, ha.priority_eq, ha.associativity_eq, hb.priority_eq,
    hb.associativity_eq]

/-- The same tree of the same numbers, with related operators in the same places. -/
inductive Expr.Rel (O : Operator α → Operator α → Prop) : Expr α → Expr α → Prop
  | num (x : α) : Rel O (.num x) (.num x)
  | neg {e e' : Expr α} : Rel O e e' → Rel O (.neg e) (.neg e')
  | bin {l l' r r' : Expr α} {op op' : Operator α} : Rel O l l' → O op op' → Rel O r r' →
      Rel O (.bin l op r) (.bin l' op' r')

/-- The same grouping of related operands. -/
inductive Grouping.Rel (O : Operator α → Operator α → Prop) : Grouping α → Grouping α → Prop
  | atom {e e' : Expr α} : e.Rel O e' → Rel O (.atom e) (.atom e')
  | node {l l' r r' : Grouping α} {op op' : Operator α} : Rel O l l' → O op op' → Rel O r r' →
      Rel O (.node l op r) (.node l' op' r')

section SameTrees

variable {O : Operator α → Operator α → Prop}

theorem Grouping.Rel.toExpr {g g' : Grouping α} (h : g.Rel O g') : g.toExpr.Rel O g'.toExpr := by
  induction h with
  | atom he => exact he
  | node _ hop _ ihl ihr => exact .bin ihl hop ihr

/-- Operators that are alike find the same place in two chains that are grouped alike. -/
theorem Grouping.Rel.attach (hO : ∀ a b, O a b → a.Alike b) {g g' : Grouping α} (h : g.Rel O g')
    {op op' : Operator α} (hop : O op op') {e e' : Expr α} (he : e.Rel O e') :
    (g.attach op e).Rel O (g'.attach op' e') := by
  induction h with
  | atom hx => exact .node (.atom hx) hop (.atom he)
  | node hl hm hr _ ihr =>
    rw [Grouping.attach, Grouping.attach, (hO _ _ hm).yieldsTo_eq (hO _ _ hop)]
    split
    · exact .node hl hm ihr
    · exact .node (.node hl hm hr) hop (.atom he)

variable {t t' : Table α}

theorem lockstep_rel (hO : ∀ a b, O a b → a.Alike b)
    (ht : ∀ symbol, Usable symbol → Option.Rel O (t.get? symbol) (t'.get? symbol)) :
    Lockstep t t' O (Expr.Rel O) (Grouping.Rel O) where
  get? := ht
  num := .num
  neg := .neg
  atom := .atom
  attach := fun hg hop he => hg.attach hO hop he
  toExpr := Grouping.Rel.toExpr

/-- **Tables whose operators are alike read the same trees**, and refuse the same texts for the same
reason. -/
theorem read_rel [Number α] (hO : ∀ a b, O a b → a.Alike b)
    (ht : ∀ symbol, Usable symbol → Option.Rel O (t.get? symbol) (t'.get? symbol))
    (text : List Char) :
    (∃ fault, Expr.read t text = .error fault ∧ Expr.read t' text = .error fault) ∨
      ∃ e e', Expr.read t text = .ok e ∧ Expr.read t' text = .ok e' ∧ e.Rel O e' :=
  (lockstep_rel hO ht).read_cases text

/-- Tables that list related operators in the same order have related operators under each
symbol. -/
theorem rel_get? (hO : ∀ a b, O a b → a.Alike b)
    (h : List.Forall₂ O t.operators t'.operators) (symbol : List Char) :
    Option.Rel O (t.get? symbol) (t'.get? symbol) := by
  unfold Table.get?
  generalize t.operators = ops at h
  generalize t'.operators = ops' at h
  induction h with
  | nil => exact .none
  | @cons a b ops ops' hab _ ih =>
    rw [List.find?_cons, List.find?_cons, (hO a b hab).symbol_eq]
    by_cases hsymbol : b.symbol == symbol
    · rw [hsymbol]
      exact .some hab
    · rw [Bool.not_eq_true] at hsymbol
      rw [hsymbol]
      exact ih

end SameTrees

end InfixCalculator
