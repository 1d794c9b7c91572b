import InfixCalculator.Proofs.Grammar
import Mathlib.Data.List.Basic

/-!
# Other blanks in a text

Blanks tell where a piece of a text ends and mean nothing else.  A text may have
other blanks between its pieces, but not none, and any blanks at its ends, and is
still read as the same expression.

No piece has a blank in it, so two readers at the same place of two such texts
take the same piece away, and both drop the blanks after it.  Only a `-` keeps the
blanks that follow it.  A blank there makes it a sign without an operand, and the
end of the text makes it a literal that is no number; neither is an expression.

* `Respaced`: the same text with other blanks.
* `Respaced.takeWhile_eq`, `Respaced.drop_takeWhile`: the same piece at the start.
* `run_respaced`: what one reader accepts, the other one accepts.
* `parse_respaced`: two texts with other blanks are the same expression.
-/

namespace InfixCalculator

/-- The second text is the first one with other blanks: some where there are some, and any number
of them at the end. -/
inductive Respaced : List Char → List Char → Prop
  | ends {w w' : List Char} : Blank w → Blank w' → Respaced w w'
  | char {c : Char} {text text' : List Char} : isBlank c = false → Respaced text text' →
      Respaced (c :: text) (c :: text')
  | gap {w w' text text' : List Char} : Blank w → w ≠ [] → Blank w' → w' ≠ [] →
      Respaced text text' → Respaced (w ++ text) (w' ++ text')

/-- A class without blanks has no run where blanks begin. -/
theorem takeWhile_of_blank {p : Char → Bool} (hp : ∀ c, p c = true → isBlank c = false)
    {w : List Char} (hw : Blank w) (hne : w ≠ []) (text : List Char) :
    (w ++ text).takeWhile p = [] := by
  obtain ⟨c, v, rfl⟩ := List.exists_cons_of_ne_nil hne
  have hc : ¬p c = true := fun h => hw.notMem (hp c h) List.mem_cons_self
  rw [List.cons_append, List.takeWhile_cons_of_neg hc]

namespace Respaced

variable {text text' : List Char}

theorem symm (h : Respaced text text') : Respaced text' text := by
  induction h with
  | ends hw hw' => exact .ends hw' hw
  | char hc _ ih => exact .char hc ih
  | gap hw hne hw' hne' _ ih => exact .gap hw' hne' hw hne ih

/-- A character that is not blank stands at the start of both texts. -/
theorem cons_left {c : Char} (hc : isBlank c = false) (h : Respaced (c :: text) text') :
    ∃ rest', text' = c :: rest' ∧ Respaced text rest' := by
  generalize hstart : c :: text = start at h
  cases h with
  | ends hw _ => exact absurd (hstart ▸ List.mem_cons_self) (hw.notMem hc)
  | char _ h =>
    cases hstart
    exact ⟨_, rfl, h⟩
  | @gap w _ rest _ hw hne _ _ _ =>
    obtain ⟨d, v, rfl⟩ := List.exists_cons_of_ne_nil hne
    cases hstart
    exact absurd List.mem_cons_self (hw.notMem hc)

theorem dropBlank (h : Respaced text text') :
    Respaced (InfixCalculator.dropBlank text) (InfixCalculator.dropBlank text') := by
  induction h with
  | ends hw hw' =>
    rw [dropBlank_of_blank hw, dropBlank_of_blank hw']
    exact .ends blank_nil blank_nil
  | char hc h _ =>
    rw [dropBlank_cons hc, dropBlank_cons hc]
    exact .char hc h
  | gap hw _ hw' _ _ ih =>
    rw [dropBlank_append hw, dropBlank_append hw']
    exact ih

theorem dropBlank_eq_nil (h : Respaced text text')
    (hnil : InfixCalculator.dropBlank text = []) : InfixCalculator.dropBlank text' = [] := by
  induction h with
  | ends _ hw' => exact dropBlank_of_blank hw'
  | char hc _ _ =>
    rw [dropBlank_cons hc] at hnil
    cases hnil
  | gap hw _ hw' _ _ ih =>
    rw [dropBlank_append hw] at hnil
    rw [dropBlank_append hw', ih hnil]

section Runs

variable {p : Char → Bool} (hp : ∀ c, p c = true → isBlank c = false)
include hp

theorem takeWhile_eq (h : Respaced text text') : text.takeWhile p = text'.takeWhile p := by
  have hends : ∀ w : List Char, Blank w → w.takeWhile p = [] := by
    intro w hw
    by_cases hne : w = []
    · rw [hne, List.takeWhile_nil]
    · have hnil := takeWhile_of_blank hp hw hne []
      rwa [List.append_nil] at hnil
  induction h with
  | ends hw hw' => rw [hends _ hw, hends _ hw']
  | @char c text text' _ _ ih => rw [List.takeWhile_cons, List.takeWhile_cons, ih]
  | gap hw hne hw' hne' _ _ => rw [takeWhile_of_blank hp hw hne, takeWhile_of_blank hp hw' hne']

theorem head?_eq (h : Respaced text text') (hne : text.takeWhile p ≠ []) :
    text'.head? = text.head? := by
  have hhead : ∀ rest : List Char, rest.takeWhile p = text.takeWhile p →
      rest.head? = (text.takeWhile p).head? := by
    intro rest heq
    have hsplit := takeWhile_append_drop p rest
    rw [← hsplit, heq, List.head?_append_of_ne_nil _ hne]
  rw [hhead text rfl, hhead text' (h.takeWhile_eq hp).symm]

/-- What is left after the first run. -/
theorem drop_takeWhile (h : Respaced text text') :
    Respaced (text.drop (text.takeWhile p).length) (text'.drop (text.takeWhile p).length) := by
  induction h with
  | @ends w w' hw hw' =>
    exact .ends (fun c hc => hw c (List.mem_of_mem_drop hc))
      (fun c hc => hw' c (List.mem_of_mem_drop hc))
  | @char c text text' hc h ih =>
    rw [List.takeWhile_cons]
    split
    · exact ih
    · exact .char hc h
  | gap hw hne hw' hne' h _ =>
    rw [takeWhile_of_blank hp hw hne]
    exact .gap hw hne hw' hne' h

end Runs

end Respaced

/-! ## Readers of two texts -/

section Runs

open Reader

variable {α : Type} [Number α] {t : Table α}

/-- A literal that is a number is the same literal in the other text. -/
theorem Respaced.startsNegation_eq {text text' : List Char} {x : α} (hminus : NoLoneMinus α)
    (h : Respaced text text') (hne : literalRun text ≠ [])
    (hx : Number.read? (literalRun text) = some x) :
    startsNegation text' = startsNegation text := by
  have hlone : literalRun text ≠ ['-'] := ne_minus_of_read? hminus hx
  have hrun : literalRun text = literalRun text' :=
    h.takeWhile_eq fun _ => isBlank_of_isLiteralChar
  have hself : ∀ rest : List Char, literalRun rest = literalRun text →
      startsNegation rest = startsNegation (literalRun text) := by
    intro rest heq
    have hsplit := takeWhile_append_drop isLiteralChar rest
    rw [← hsplit, ← literalRun, heq, startsNegation_append hne hlone]
  rw [hself text rfl, hself text' hrun.symm]

/-- **What is read from a text is read from the text with other blanks.**  The two readers are at
the same place, and both of them or none are at the end. -/
theorem run_respaced (hminus : NoLoneMinus α) (s : State α) (text : List Char) :
    ∀ (text' : List Char) (e : Expr α), Respaced text text' → (text = [] → text' = []) →
      (run t s text).result = .ok e → (run t s text').result = .ok e := by
  induction s, text using run_induction t with
  | missingOperand frame outer =>
    intro text' e _ _ h
    rw [run_operand_nil] at h
    cases h
  | opening frame outer rest ih =>
    intro text' e hspace _ h
    obtain ⟨rest', rfl, hrest⟩ := hspace.cons_left (by decide)
    rw [run_opening] at h ⊢
    exact ih _ e hrest.dropBlank hrest.dropBlank_eq_nil h
  | negation frame outer rest hneg ih =>
    intro text' e hspace _ h
    obtain ⟨rest', rfl, hrest⟩ := hspace.cons_left (by decide)
    obtain ⟨d, tail, htext, hd⟩ := startsNegation_iff.mp hneg
    cases htext
    rw [run_negation _ _ hneg] at h
    cases hblank : isBlank d with
    | true =>
      -- a sign does not reach over blanks
      have hnone : literalRun (d :: tail) = [] := by simp [literalRun, isLiteralChar, hblank]
      rw [run_notAnOperand _ _ hnone] at h
      cases h
    | false =>
      obtain ⟨tail', rfl, _⟩ := hrest.cons_left hblank
      have hneg' : startsNegation ('-' :: d :: tail') = true := hneg
      rw [run_negation _ _ hneg']
      exact ih _ e hrest (by simp) h
  | notAnOperand frame outer c rest hnone =>
    intro text' e _ _ h
    rw [run_notAnOperand _ _ hnone] at h
    cases h
  | notANumber frame outer text hopening hneg hne hx =>
    intro text' e _ _ h
    rw [run_notANumber _ _ hopening hneg hne hx] at h
    cases h
  | number frame outer text x hopening hneg hne hx ih =>
    intro text' e hspace _ h
    have hrun : literalRun text = literalRun text' :=
      hspace.takeWhile_eq fun _ => isBlank_of_isLiteralChar
    have hrest := hspace.drop_takeWhile (p := isLiteralChar) fun _ => isBlank_of_isLiteralChar
    have hneg' : startsNegation text' = false := by
      rw [hspace.startsNegation_eq hminus hne hx, hneg]
    rw [run_number _ _ hopening hneg hne hx] at h
    have hopening' : text'.head? ≠ some '(' := by
      rwa [hspace.head?_eq (fun _ => isBlank_of_isLiteralChar) hne]
    rw [run_number _ _ hopening' hneg' (hrun ▸ hne) (hrun ▸ hx), ← hrun]
    exact ih _ e hrest.dropBlank hrest.dropBlank_eq_nil h
  | complete chain =>
    intro text' e _ hend h
    rw [hend rfl]
    exact h
  | unclosed chain frame outer =>
    intro text' e _ _ h
    rw [run_operator_nil_open] at h
    cases h
  | trailing chain rest =>
    intro text' e _ _ h
    rw [run_trailing] at h
    cases h
  | closing chain frame outer rest ih =>
    intro text' e hspace _ h
    obtain ⟨rest', rfl, hrest⟩ := hspace.cons_left (by decide)
    rw [run_closing] at h ⊢
    exact ih _ e hrest.dropBlank hrest.dropBlank_eq_nil h
  | notAnOperation chain outer c rest hc hnone =>
    intro text' e _ _ h
    rw [run_notAnOperation _ _ hc hnone] at h
    cases h
  | unknown chain outer text hne hop =>
    intro text' e _ _ h
    rw [run_unknown _ _ hne hop] at h
    cases h
  | bound chain outer text op hne hop ih =>
    intro text' e hspace _ h
    have hrun : operatorRun text = operatorRun text' :=
      hspace.takeWhile_eq fun _ => isBlank_of_isOperatorChar
    have hrest := hspace.drop_takeWhile (p := isOperatorChar) fun _ => isBlank_of_isOperatorChar
    rw [run_bound _ _ hne hop] at h
    rw [run_bound _ _ (hrun ▸ hne) (hrun ▸ hop), ← hrun]
    exact ih _ e hrest.dropBlank hrest.dropBlank_eq_nil h

theorem read_respaced (hminus : NoLoneMinus α) {v v' text text' : List Char} (hv : Blank v)
    (hv' : Blank v') (h : Respaced text text') {e : Expr α}
    (hread : Expr.read t (v ++ text) = .ok e) : Expr.read t (v' ++ text') = .ok e := by
  rw [Expr.read, Reader.read, dropBlank_append hv] at hread
  rw [Expr.read, Reader.read, dropBlank_append hv']
  exact run_respaced hminus _ _ _ e h.dropBlank h.dropBlank_eq_nil hread

end Runs

/-! ## Calculators -/

namespace Calculator

theorem parse_respaced_iff {α : Type} [Number α] (hminus : NoLoneMinus α) (c : Calculator α)
    {v v' text text' : List Char} (hv : Blank v) (hv' : Blank v') (h : Respaced text text')
    (e : Expr α) : c.parse (v ++ text) = .ok e ↔ c.parse (v' ++ text') = .ok e := by
  rw [parse_eq_ok_iff, parse_eq_ok_iff]
  exact ⟨read_respaced hminus hv hv' h, read_respaced hminus hv' hv h.symm⟩

/-- **Blanks only separate.**  With any blanks at the ends, and with some for some in between, a
text is the same expression or is still none, whatever the table and for integers of any width and
binary numbers of any format. -/
theorem parse_respaced :
    (∀ (width : Nat) (c : Calculator (Signed width)) (v v' text text' : List Char),
        Blank v → Blank v' → Respaced text text' →
          ∀ e, c.parse (v ++ text) = .ok e ↔ c.parse (v' ++ text') = .ok e) ∧
      ∀ (f : Format) [f.Power] (c : Calculator (Binary f)) (v v' text text' : List Char),
        Blank v → Blank v' → Respaced text text' →
          ∀ e, c.parse (v ++ text) = .ok e ↔ c.parse (v' ++ text') = .ok e := by
  refine ⟨?_, ?_⟩
  · intro width c v v' text text' hv hv' h e
    exact c.parse_respaced_iff (noLoneMinus_signed width) hv hv' h e
  · intro f _ c v v' text text' hv hv' h e
    exact c.parse_respaced_iff (noLoneMinus_binary f) hv hv' h e

/-- Blanks of several kinds between the pieces and at both ends of a text, and after a `-`, where
there may be none. -/
theorem parse_respaced_kinds :
    (Respaced "-(1) + -2".toList "-(1)\t\x0b+\u2003-2 \x85".toList ∧
      ∃ e, (standard (Signed 8)).parse "-(1) + -2".toList = .ok e ∧
        (standard (Signed 8)).parse "\n-(1)\t\x0b+\u2003-2 \x85".toList = .ok e) ∧
      Respaced "- 1".toList "-\n\t1 ".toList ∧
        ∀ e, (standard Double).parse "-\n\t1 ".toList ≠ .ok e := by
  have hkinds : Respaced "-(1) + -2".toList "-(1)\t\x0b+\u2003-2 \x85".toList := by
    have hspace : Blank ['\t', '\x0b'] ∧ Blank ['\u2003'] ∧ Blank [' ', '\x85'] := by decide
    have hend : Respaced ['-', '2'] ['-', '2', ' ', '\x85'] :=
      .char rfl (.char rfl (.ends blank_nil hspace.2.2))
    have hafter : Respaced ['+', ' ', '-', '2'] ['+', '\u2003', '-', '2', ' ', '\x85'] :=
      .char rfl (.gap blank_space (by decide) hspace.2.1 (by decide) hend)
    exact .char rfl (.char rfl (.char rfl (.char rfl
      (.gap blank_space (by decide) hspace.1 (by decide) hafter))))
  have hsign : Respaced "- 1".toList "-\n\t1 ".toList := by
    have hspace : Blank ['\n', '\t'] := by decide
    exact .char rfl (.gap blank_space (by decide) hspace (by decide)
      (.char rfl (.ends blank_nil blank_space)))
  have hline : Blank ['\n'] := by decide
  have hread : (standard (Signed 8)).parse "-(1) + -2".toList =
      .ok (.bin (.neg (.num (.wrap 1))) ⟨['+'], Number.add, 10, .left⟩ (.num (.wrap (-2)))) := by
    with_unfolding_all rfl
  have hnone : ∃ error, (standard Double).parse "- 1".toList = .error error :=
    ⟨.parse "expected operand, found  ", by with_unfolding_all rfl⟩
  refine ⟨⟨hkinds, _, hread, ?_⟩, hsign, ?_⟩
  · exact (parse_respaced.1 8 _ [] ['\n'] _ _ blank_nil hline hkinds _).mp hread
  · intro e hread'
    obtain ⟨error, herror⟩ := hnone
    have hok := (parse_respaced.2 _ (standard Double) [] [] _ _ blank_nil blank_nil hsign e).mpr
      hread'
    rw [List.nil_append, herror] at hok
    cases hok

end Calculator

end InfixCalculator
