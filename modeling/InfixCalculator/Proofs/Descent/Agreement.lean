import InfixCalculator.Proofs.Descent.Progress
import InfixCalculator.Proofs.Reading
import InfixCalculator.Operator.Catalogue

/-!
# Descent and frames

A descent reads every text as the reader with frames does.  Where the reader has
one chain that grows at its right end, a descent has the operators that wait for
their right operand in calls, each with the part to its left.  These operators
are the way from the root of the chain to its last part, its spine.  A call that
goes on yields to the next operator, and yielding is transitive, so all operators
of the spine yield to it, and the reader attaches it below them.

* `Grouping.under`: a part under a spine; `attach_under` attaches to it.
* `Settled`: a part on which the next operator is put.
* `Guards`: a chain goes on only before operators that its spine yields to.
* `agreeing`: the functions agree with the reader.
* `whole_ends`: the outcome on a whole text is what the reader gives.
* `descent_ends`: every descent ends, and what its outcome says.
-/

namespace InfixCalculator

variable {α : Type}

/-! ## Spines -/

namespace Grouping

/-- A part at the right end of a chain, under operators with the parts to their left. -/
def under (spine : List (Grouping α × Operator α)) (g : Grouping α) : Grouping α :=
  spine.foldr (fun link r => node link.1 link.2 r) g

theorem under_append (spine : List (Grouping α × Operator α)) (l : Grouping α) (op : Operator α)
    (r : Grouping α) : under (spine ++ [(l, op)]) r = under spine (node l op r) :=
  List.foldr_append ..

theorem attach_under {spine : List (Grouping α × Operator α)} {op : Operator α}
    (h : ∀ link ∈ spine, link.2.yieldsTo op = true) (g : Grouping α) (e : Expr α) :
    (under spine g).attach op e = under spine (g.attach op e) := by
  induction spine with
  | nil => rfl
  | cons link spine ih =>
    have hlink : link.2.yieldsTo op = true := h link (List.mem_cons_self ..)
    have hspine := ih fun link' hmem => h link' (List.mem_cons_of_mem link hmem)
    show (node link.1 link.2 (under spine g)).attach op e = node link.1 link.2 _
    rw [attach, if_pos hlink, hspine]
    rfl

end Grouping

theorem Position.dropBlank_dropBlank (p : Position α) : p.dropBlank.dropBlank = p.dropBlank := by
  have hrest : InfixCalculator.dropBlank (InfixCalculator.dropBlank p.rest) =
      InfixCalculator.dropBlank p.rest :=
    dropBlank_eq_self (eq_false_of_mem_head?_dropWhile isBlank p.rest)
  exact congrArg (fun rest => (⟨⟨rest⟩, p.met⟩ : Position α)) hrest

namespace Descent

open Grouping Reader

variable {t : Table α}

/-- A `-` that is no sign belongs to a literal. -/
theorem startsNegation_eq_false {p : Position α} {c : Char} {tail : List Char}
    (hrest : p.rest = c :: tail) (h : ¬(c = '-' ∧ p.cursor.atNegation = true)) :
    startsNegation p.rest = false := by
  rw [← Bool.not_eq_true]
  intro hstarts
  obtain ⟨d, rest, htext, _⟩ := startsNegation_iff.mp hstarts
  rw [hrest] at htext
  cases htext
  exact h ⟨rfl, hstarts⟩

/-- The operator that a cursor is at. -/
def Next (t : Table α) (c : Cursor) (op : Operator α) : Prop :=
  c.peekOperator ≠ [] ∧ t.get? c.peekOperator = some op

theorem unfinished_of_peekOperator {c : Cursor} (h : c.peekOperator ≠ []) :
    unfinished c = true := by
  rw [← Bool.not_eq_false]
  intro hend
  rcases unfinished_eq_false_iff.mp hend with hnil | ⟨tail, hclosing⟩
  · rw [Cursor.peekOperator, hnil] at h
    exact h rfl
  · rw [Cursor.peekOperator, hclosing] at h
    exact h rfl

theorem exists_rest_of_unfinished {c : Cursor} (h : unfinished c = true) :
    ∃ d tail, c.rest = d :: tail ∧ d ≠ ')' := by
  obtain ⟨rest⟩ := c
  cases rest with
  | nil => cases h
  | cons d tail =>
    refine ⟨d, tail, rfl, ?_⟩
    rintro rfl
    cases h

theorem yieldsToNext_eq {c : Cursor} {op next : Operator α} (h : Next t c next) :
    yieldsToNext t op c = op.yieldsTo next := by
  rw [yieldsToNext, unfinished_of_peekOperator h.1, h.2]
  rfl

/-- The next operator takes the whole part as its left operand. -/
def Settled (t : Table α) (g : Grouping α) (c : Cursor) : Prop :=
  ∀ next e, Next t c next → g.attach next e = .node g next (.atom e)

theorem settled_atom (e : Expr α) (c : Cursor) : Settled t (.atom e) c := fun _ _ _ => rfl

theorem settled_node {l r : Grouping α} {op : Operator α} {c : Cursor}
    (h : yieldsToNext t op c = false) : Settled t (.node l op r) c := by
  intro next e hnext
  rw [yieldsToNext_eq hnext] at h
  rw [attach, h]
  rfl

/-- A chain goes on only before an operation, and all of its spine yields to the operator of it. -/
structure Guards (t : Table α) (goesOn : Cursor → Bool)
    (spine : List (Grouping α × Operator α)) : Prop where
  unfinished : ∀ {c}, goesOn c = true → unfinished c = true
  yields : ∀ {c next}, goesOn c = true → Next t c next → ∀ link ∈ spine, link.2.yieldsTo next = true

theorem guards_unfinished (t : Table α) : Guards t unfinished [] :=
  ⟨id, fun _ _ _ hmem => absurd hmem List.not_mem_nil⟩

/-- The right operand of an operator goes on as the operator and all above it allow. -/
theorem guards_yieldsToNext {spine : List (Grouping α × Operator α)} {op : Operator α}
    (h : ∀ link ∈ spine, link.2.yieldsTo op = true) (g : Grouping α) :
    Guards t (yieldsToNext t op) (spine ++ [(g, op)]) := by
  refine ⟨?_, ?_⟩
  · intro c hgoes
    rw [yieldsToNext, Bool.and_eq_true] at hgoes
    exact hgoes.1
  · intro c next hgoes hnext link hmem
    rw [yieldsToNext_eq hnext] at hgoes
    rcases List.mem_append.mp hmem with hmem | hmem
    · exact Operator.yieldsTo_trans (h link hmem) hgoes
    · rw [List.mem_singleton.mp hmem]
      exact hgoes

/-! ## Agreement -/

variable [Number α]

/-- What the reader gives from a position, with all that was met before it. -/
def reading (t : Table α) (s : State α) (p : Position α) : Reading α :=
  (Reader.run t s p.rest).meetAll p.met

section Steps

variable {frame : Frame α} {outer : List (Frame α)} {p : Position α}

theorem reading_negation {tail : List Char} (hrest : p.rest = '-' :: tail)
    (hneg : p.cursor.atNegation = true) :
    reading t (.operand frame outer) p = reading t (.operand frame.negate outer) (p.drop 1) := by
  have hstarts : startsNegation ('-' :: tail) = true := hrest ▸ hneg
  rw [reading, hrest, run_negation _ _ hstarts, reading, Position.rest_drop, hrest]
  rfl

theorem reading_opening {tail : List Char} (hrest : p.rest = '(' :: tail) :
    reading t (.operand frame outer) p =
      reading t (.operand .start (frame :: outer)) (p.drop 1).dropBlank := by
  rw [reading, hrest, run_opening, reading, Position.rest_dropBlank, Position.rest_drop, hrest]
  rfl

theorem reading_number {x : α} (hopening : p.rest.head? ≠ some '(')
    (hneg : startsNegation p.rest = false) (hne : literalRun p.rest ≠ [])
    (hx : Number.read? (literalRun p.rest) = some x) :
    reading t (.operand frame outer) p =
      reading t (.operator (frame.complete (.num x)) outer)
        (p.drop (literalRun p.rest).length).dropBlank := by
  rw [reading, run_number _ _ hopening hneg hne hx]
  rfl

theorem reading_closing {g : Grouping α} {tail : List Char} (hrest : p.rest = ')' :: tail) :
    reading t (.operator g (frame :: outer)) p =
      reading t (.operator (frame.complete g.toExpr) outer) (p.drop 1).dropBlank := by
  rw [reading, hrest, run_closing, reading, Position.rest_dropBlank, Position.rest_drop, hrest]
  rfl

theorem reading_bound {g : Grouping α} {op : Operator α} (h : Next t p.cursor op) :
    reading t (.operator g outer) p =
      reading t (.operand (.after g op) outer)
        ((p.drop p.cursor.peekOperator.length).meet op).dropBlank := by
  have hne : operatorRun p.rest ≠ [] := h.1
  have hop : t.get? (operatorRun p.rest) = some op := h.2
  rw [reading, run_bound g outer hne hop, Reading.meet_eq_meetAll, Reading.meetAll_meetAll]
  rfl

end Steps

/-- A fault is the one that the reader gives; what is known after a value is said by `ok`. -/
def Agrees (r : Reading α) (ok : Expr α → Position α → Prop) :
    Except Fault (Expr α) → Position α → Prop
  | .ok e, q => ok e q
  | .error fault, q => r = ⟨q.met, .error fault⟩

theorem ends_fail {r : Reading α} {ok : Expr α → Position α → Prop} {p q : Position α}
    {s : State α} {fault : Fault} (h : r = reading t s p)
    (hfail : Reader.run t s p.rest = .fail fault) (hmet : q.met = p.met) :
    Ends (throw fault) q (Agrees r ok) := by
  apply ends_throw
  show r = ⟨q.met, .error fault⟩
  rw [h, reading, hfail, hmet, Reading.meetAll, Reading.fail, List.append_nil]

/-- The reader has come to a position with a part under a spine. -/
structure Reached (t : Table α) (r : Reading α) (spine : List (Grouping α × Operator α))
    (outer : List (Frame α)) (g : Grouping α) (q : Position α) : Prop where
  solid : q.dropBlank = q
  eq : r = reading t (.operator (under spine g) outer) q

/-- The functions agree with the reader, at a depth that is enough for the text. -/
structure Agreeing (t : Table α) (depth : Nat) : Prop where
  operand : ∀ (frame : Frame α) (outer : List (Frame α)) (p : Position α),
    2 * p.rest.length + 1 ≤ depth →
    Ends (operand t depth) p (Agrees (reading t (.operand frame outer) p) fun e q =>
      reading t (.operand frame outer) p =
        reading t (.operator (frame.complete e) outer) q.dropBlank)
  operation : ∀ (r : Reading α) spine (outer : List (Frame α)) (g : Grouping α) (p : Position α),
    unfinished p.cursor = true →
    (∀ next, Next t p.cursor next → ∀ link ∈ spine, link.2.yieldsTo next = true) →
    Settled t g p.cursor → r = reading t (.operator (under spine g) outer) p →
    2 * p.rest.length + 1 ≤ depth →
    Ends (operation t g.toExpr depth) p (Agrees r fun e q =>
      ∃ g', g'.toExpr = e ∧ Settled t g' q.cursor ∧ Reached t r spine outer g' q)
  chainWhile : ∀ goesOn spine (frame : Frame α) (outer : List (Frame α)) (p : Position α),
    Guards t goesOn spine → (∀ e, frame.complete e = under spine (.atom e)) →
    2 * p.rest.length + 2 ≤ depth →
    Ends (chainWhile t goesOn depth) p (Agrees (reading t (.operand frame outer) p.dropBlank)
      fun e q => ∃ g, g.toExpr = e ∧ goesOn q.cursor = false ∧
        Reached t (reading t (.operand frame outer) p.dropBlank) spine outer g q)
  extendWhile : ∀ goesOn (r : Reading α) spine (outer : List (Frame α)) (g : Grouping α)
    (p : Position α), Guards t goesOn spine → Settled t g p.cursor → Reached t r spine outer g p →
    2 * p.rest.length + 2 ≤ depth →
    Ends (extendWhile t goesOn g.toExpr depth) p (Agrees r fun e q =>
      ∃ g', g'.toExpr = e ∧ goesOn q.cursor = false ∧ Reached t r spine outer g' q)

variable {depth : Nat}

theorem operand_agrees (h : Agreeing t depth) (frame : Frame α) (outer : List (Frame α))
    (p : Position α) (hp : 2 * p.rest.length + 1 ≤ depth + 1) :
    Ends (operand t (depth + 1)) p (Agrees (reading t (.operand frame outer) p) fun e q =>
      reading t (.operand frame outer) p =
        reading t (.operator (frame.complete e) outer) q.dropBlank) := by
  rw [operand, ends_look]
  split
  · rename_i hfirst
    have hnil : p.rest = [] := List.head?_eq_none_iff.mp hfirst
    exact ends_fail rfl (by rw [hnil, run_operand_nil]) rfl
  · rename_i c hfirst
    obtain ⟨tail, hrest⟩ := exists_rest_of_first? hfirst
    have hpos := length_pos_of_rest hrest
    have hdrop : 2 * (p.drop 1).rest.length + 2 ≤ depth := by
      rw [Position.rest_drop, List.length_drop]
      omega
    split
    · rename_i hneg
      obtain ⟨rfl, hneg⟩ := hneg
      rw [ends_take hpos, reading_negation hrest hneg]
      refine (h.operand frame.negate outer (p.drop 1) (by omega)).bind ?_ fun _ _ hfault => hfault
      intro e q hq
      apply ends_pure
      show _ = reading t (.operator (frame.complete (.neg e)) outer) q.dropBlank
      rw [← Frame.complete_negate]
      exact hq
    · rename_i hneg
      split
      · rename_i hopening
        subst hopening
        rw [ends_take hpos, reading_opening hrest]
        refine (h.chainWhile unfinished [] .start (frame :: outer) (p.drop 1) (guards_unfinished t)
          (fun _ => rfl) hdrop).bind ?_ fun _ _ hfault => hfault
        rintro e q ⟨g, rfl, hend, hq⟩
        rw [ends_look]
        rcases closing_cases hend with ⟨hnil, hclosing⟩ | ⟨after, hafter, hclosing⟩
        · have hnil : q.rest = [] := hnil
          rw [if_neg hclosing]
          exact ends_fail hq.eq (hnil ▸ run_operator_nil_open g frame outer) rfl
        · rw [if_pos hclosing, ends_take (length_pos_of_rest hafter)]
          exact ends_pure (hq.eq.trans (reading_closing hafter))
      · rename_i hopening
        have hhead : p.rest.head? ≠ some '(' := by
          rw [hrest]
          exact fun h => hopening (Option.some.inj h)
        have hstarts := startsNegation_eq_false hrest hneg
        rw [ends_takeLiteral]
        split
        · rename_i hnone
          rw [hrest] at hnone
          exact ends_fail rfl (by rw [hrest, run_notAnOperand _ _ hnone]) rfl
        · rename_i hne
          split
          · rename_i hx
            exact ends_fail rfl (run_notANumber _ _ hhead hstarts hne hx) rfl
          · rename_i x hx
            exact ends_pure (reading_number hhead hstarts hne hx)

theorem operation_agrees (h : Agreeing t depth) {r : Reading α}
    {spine : List (Grouping α × Operator α)} {outer : List (Frame α)} {g : Grouping α}
    {p : Position α} (hat : unfinished p.cursor = true)
    (hspine : ∀ next, Next t p.cursor next → ∀ link ∈ spine, link.2.yieldsTo next = true)
    (hg : Settled t g p.cursor) (hr : r = reading t (.operator (under spine g) outer) p)
    (hp : 2 * p.rest.length + 1 ≤ depth + 1) :
    Ends (operation t g.toExpr (depth + 1)) p (Agrees r fun e q =>
      ∃ g', g'.toExpr = e ∧ Settled t g' q.cursor ∧ Reached t r spine outer g' q) := by
  have hle : p.cursor.peekOperator.length ≤ p.rest.length := length_takeWhile_le _ _
  rw [operation, ends_look]
  dsimp only
  split
  · rename_i hnone
    obtain ⟨c, tail, hrest, hc⟩ := exists_rest_of_unfinished hat
    rw [Cursor.peekOperator, hrest] at hnone
    refine ends_fail hr ?_ rfl
    rw [Position.rest, hrest, run_notAnOperation _ _ hc hnone]
  · rename_i hne
    have hpos : 0 < p.cursor.peekOperator.length := List.length_pos_iff.mpr hne
    rw [ends_take hle]
    split
    · rename_i hop
      exact ends_fail hr (run_unknown _ _ hne hop) rfl
    · rename_i op hop
      have hyields := hspine op ⟨hne, hop⟩
      have hframe : ∀ e, (Frame.after (under spine g) op).complete e =
          under (spine ++ [(g, op)]) (.atom e) := by
        intro e
        rw [Frame.complete_after, attach_under hyields, hg op e ⟨hne, hop⟩, under_append]
      have hdrop : 2 * ((p.drop p.cursor.peekOperator.length).meet op).rest.length + 2 ≤ depth := by
        rw [Position.rest_meet, Position.rest_drop, List.length_drop]
        omega
      rw [reading_bound ⟨hne, hop⟩] at hr
      subst hr
      rw [ends_meet]
      refine (h.chainWhile _ _ _ outer _ (guards_yieldsToNext hyields g) hframe hdrop).bind ?_
        fun _ _ hfault => hfault
      rintro e q ⟨right, rfl, hend, hq⟩
      refine ends_pure ⟨.node g op right, rfl, settled_node hend, hq.solid, ?_⟩
      rw [hq.eq, under_append]

theorem extendWhile_agrees (h : Agreeing t depth) {goesOn : Cursor → Bool} {r : Reading α}
    {spine : List (Grouping α × Operator α)} {outer : List (Frame α)} {g : Grouping α}
    {p : Position α} (hguards : Guards t goesOn spine) (hg : Settled t g p.cursor)
    (hr : Reached t r spine outer g p) (hp : 2 * p.rest.length + 2 ≤ depth + 1) :
    Ends (extendWhile t goesOn g.toExpr (depth + 1)) p (Agrees r fun e q =>
      ∃ g', g'.toExpr = e ∧ goesOn q.cursor = false ∧ Reached t r spine outer g' q) := by
  rw [extendWhile, ends_look]
  split
  · rename_i hgoes
    have hoperation := h.operation r spine outer g p (hguards.unfinished hgoes)
      (fun next hnext => hguards.yields hgoes hnext) hg hr.eq (by omega)
    have hprogress := (progressing t depth).operation g.toExpr p (by omega)
    refine (hoperation.and hprogress).bind ?_ fun _ _ hfault => hfault.1
    rintro e q ⟨⟨g', rfl, hg', hq⟩, hadvanced⟩
    have hlt := hadvanced.length_lt
    rw [ends_dropBlank, hq.solid]
    exact h.extendWhile goesOn r spine outer g' q hguards hg' hq (by omega)
  · rename_i hend
    exact ends_pure ⟨g, rfl, Bool.not_eq_true _ ▸ hend, hr⟩

theorem chainWhile_agrees (h : Agreeing t depth) {goesOn : Cursor → Bool}
    {spine : List (Grouping α × Operator α)} {frame : Frame α} {outer : List (Frame α)}
    {p : Position α} (hguards : Guards t goesOn spine)
    (hframe : ∀ e, frame.complete e = under spine (.atom e))
    (hp : 2 * p.rest.length + 2 ≤ depth + 1) :
    Ends (chainWhile t goesOn (depth + 1)) p
      (Agrees (reading t (.operand frame outer) p.dropBlank) fun e q =>
        ∃ g, g.toExpr = e ∧ goesOn q.cursor = false ∧
          Reached t (reading t (.operand frame outer) p.dropBlank) spine outer g q) := by
  have hle : p.dropBlank.rest.length ≤ p.rest.length := length_dropBlank_le p.rest
  have hoperand := h.operand frame outer p.dropBlank (by omega)
  have hprogress := (progressing t depth).operand p.dropBlank (by omega)
  rw [chainWhile, ends_dropBlank]
  refine (hoperand.and hprogress).bind ?_ fun _ _ hfault => hfault.1
  rintro e q ⟨hq, hadvanced⟩
  have hlt := hadvanced.dropBlank.length_lt
  rw [ends_dropBlank]
  refine h.extendWhile goesOn _ spine outer (.atom e) q.dropBlank hguards (settled_atom e _)
    ⟨q.dropBlank_dropBlank, ?_⟩ (by omega)
  rw [← hframe]
  exact hq

theorem agreeing (t : Table α) (depth : Nat) : Agreeing t depth := by
  induction depth with
  | zero =>
    refine ⟨?_, ?_, ?_, ?_⟩
    · intro frame outer p hp
      omega
    · intro r spine outer g p _ _ _ _ hp
      omega
    · intro goesOn spine frame outer p _ _ hp
      omega
    · intro goesOn r spine outer g p _ _ _ hp
      omega
  | succ depth ih =>
    refine ⟨operand_agrees ih, ?_, ?_, ?_⟩
    · intro r spine outer g p hat hspine hg hr hp
      exact operation_agrees ih hat hspine hg hr hp
    · intro goesOn spine frame outer p hguards hframe hp
      exact chainWhile_agrees ih hguards hframe hp
    · intro goesOn r spine outer g p hguards hg hr hp
      exact extendWhile_agrees ih hguards hg hr hp

/-! ## Whole texts -/

theorem below_whole (t : Table α) {depth depth' : Nat} (h : depth ≤ depth') :
    Below (whole t depth) (whole t depth') :=
  (Routine.below_descent t .chain h).bind fun _ => below_refl _

/-- What an outcome on a whole text says: there are no more nodes than characters, or the rest that
is told begins with a `)`, or one of the functions has stopped. -/
def WholeProgress (text : List Char) : Except Fault (Expr α) → Position α → Prop
  | .ok e, _ => e.subterms.length ≤ text.length
  | .error (.trailing rest), _ => rest <:+ text ∧ ∃ tail, rest = ')' :: tail
  | .error fault, q => Stopped fault q

omit [Number α] in
/-- What the message of a fault says of the text. -/
theorem WholeProgress.of_error {text : List Char} {fault : Fault} {q : Position α}
    (h : WholeProgress text (.error fault) q) :
    (fault.message = "expected ), found end of input" → q.rest = []) ∧
      ¬"cannot consume ".toList <+: fault.message.toList ∧
      ("unexpected '".toList <+: fault.message.toList → ∃ tail, ')' :: tail <:+ text ∧
        fault.message =
          "unexpected '" ++ String.ofList (')' :: tail) ++ "' after complete expression") := by
  by_cases htrailing : ∃ rest, fault = .trailing rest
  · obtain ⟨rest, rfl⟩ := htrailing
    obtain ⟨hsuffix, tail, rfl⟩ := h
    refine ⟨fun hmessage => ?_, fun hstart => ?_, fun _ => ⟨tail, hsuffix, rfl⟩⟩
    · cases eq_unclosed_of_message hmessage
    · obtain ⟨_, _, hshort⟩ := exists_shortRest_of_start hstart
      cases hshort
  · have hstopped : Stopped fault q := by
      cases fault with
      | trailing rest => exact absurd ⟨rest, rfl⟩ htrailing
      | _ => exact h
    exact ⟨hstopped.rest_eq_nil, hstopped.not_prefix_message,
      fun hstart => absurd (exists_trailing_of_start hstart) htrailing⟩

/-- **A descent gives on a whole text what the reader gives.** -/
theorem whole_ends (t : Table α) (text : List Char) :
    Ends (whole t (2 * text.length + 2)) (.start text) fun result q =>
      WholeProgress text result q ∧ Reader.read t text = ⟨q.met, result⟩ := by
  have hread : reading t (.operand .start []) (Position.start text).dropBlank =
      Reader.read t text := rfl
  have hprogress := (progressing t _).chainWhile unfinished (.start text) (Nat.le_refl _)
  have hagrees := (agreeing t _).chainWhile unfinished [] .start [] (.start text)
    (guards_unfinished t) (fun _ => rfl) (Nat.le_refl _)
  rw [hread] at hagrees
  refine (hprogress.and hagrees).bind ?_ ?_
  · rintro e q ⟨⟨hadvanced, hend⟩, g, rfl, _, hq⟩
    rw [ends_look]
    rcases unfinished_eq_false_iff.mp hend with hnil | ⟨tail, hclosing⟩
    · have hempty : q.cursor.isEmpty = true := by
        rw [Cursor.isEmpty, hnil]
        rfl
      have hnodes : g.toExpr.subterms.length ≤ text.length := by
        have hpaid := hadvanced.paid
        have hstart : (Position.start text : Position α).rest = text := rfl
        rw [hstart] at hpaid
        omega
      rw [if_pos hempty]
      refine ends_pure ⟨hnodes, ?_⟩
      rw [hq.eq, reading, Position.rest, hnil, under, List.foldr_nil, run_operator_nil,
        Reading.meetAll, Reading.done, List.append_nil]
    · have hempty : ¬q.cursor.isEmpty = true := by
        rw [Cursor.isEmpty, hclosing]
        exact Bool.false_ne_true
      have hrest : q.cursor.rest <:+ text := hadvanced.suffix
      rw [if_neg hempty]
      refine ends_throw ⟨⟨hrest, tail, hclosing⟩, ?_⟩
      rw [hq.eq, reading, Position.rest, hclosing, under, List.foldr_nil, run_trailing,
        Reading.meetAll, Reading.fail, List.append_nil]
  · rintro fault q ⟨hstopped, hfault⟩
    refine ⟨?_, hfault⟩
    cases fault with
    | trailing rest => exact absurd hstopped id
    | _ => exact hstopped

/-! ## Every text -/

/-- **A descent always ends, with progress.**  Calls that may nest twice as deep as the text is long
are enough.  A value has taken something away, and a chain ends at the end of the text or before a
`)`.  A missing `)` is told at the end of the text only, and characters are never asked for that are
not there.  A whole text has the outcome that the reader gives; its expression has no more nodes
than the text has characters, and a rest that is told begins with a `)`. -/
theorem descent_ends (t : Table α) :
    (∀ (r : Routine α) (p : Position α), ∃ result q, ∀ depth, 2 * p.rest.length + 2 ≤ depth →
      (r.descent t depth).run p = some (result, q)) ∧
    (∀ (r : Routine α) p e q, r.Gives t p (.ok e) q →
      q.rest <:+ p.rest ∧ q.rest.length < p.rest.length) ∧
    (∀ p e q, Routine.chain.Gives t p (.ok e) q → q.rest = [] ∨ ∃ tail, q.rest = ')' :: tail) ∧
    (∀ (r : Routine α) p fault q, r.Gives t p (.error fault) q →
      (fault.message = "expected ), found end of input" → q.rest = []) ∧
      ¬"cannot consume ".toList <+: fault.message.toList) ∧
    ∀ text, ∃ q,
      (∀ depth, 2 * text.length + 2 ≤ depth →
        (whole t depth).run (.start text) = some (Expr.read t text, q)) ∧
      (∀ e, Expr.read t text = .ok e → e.subterms.length ≤ text.length) ∧
      ∀ fault, Expr.read t text = .error fault →
        (fault.message = "expected ), found end of input" → q.rest = []) ∧
        ¬"cannot consume ".toList <+: fault.message.toList ∧
        ("unexpected '".toList <+: fault.message.toList → ∃ tail, ')' :: tail <:+ text ∧
          fault.message =
            "unexpected '" ++ String.ofList (')' :: tail) ++ "' after complete expression") := by
  refine ⟨?_, ?_, ?_, ?_, ?_⟩
  · intro r p
    obtain ⟨result, q, hrun, _⟩ := r.ends t p
    exact ⟨result, q, fun depth hdepth => r.below_descent t hdepth p _ hrun⟩
  · intro r p e q h
    exact ⟨h.progress.suffix, h.progress.length_lt⟩
  · intro p e q h
    exact unfinished_eq_false_iff.mp h.unfinished_eq_false
  · intro r p fault q h
    exact ⟨h.progress.rest_eq_nil, h.progress.not_prefix_message⟩
  · intro text
    obtain ⟨result, q, hrun, hprogress, hread⟩ := whole_ends t text
    have hresult : Expr.read t text = result := by rw [Expr.read, hread]
    rw [hresult]
    refine ⟨q, fun depth hdepth => below_whole t hdepth _ _ hrun, ?_, ?_⟩
    · rintro e rfl
      exact hprogress
    · rintro fault rfl
      exact hprogress.of_error

/-- A parenthesis that is not closed is missed at the end of the text, one that was not opened is
told with all that follows it, and a text may have half as many nodes as characters. -/
theorem descent_ends_parentheses :
    (∃ q, Routine.operand.Gives (Table.arithmetic (Signed 8)) (.start "(1 + 2".toList)
      (.error .unclosed) q ∧ q.rest = []) ∧
    (∃ tail, ')' :: tail <:+ "1 + 2) * 3".toList ∧ (Fault.trailing ") * 3".toList).message =
      "unexpected '" ++ String.ofList (')' :: tail) ++ "' after complete expression") ∧
    ∃ e, Expr.read (Table.arithmetic (Signed 8)) "-(1)".toList = .ok e ∧
      e.subterms.length ≤ 4 := by
  obtain ⟨_, _, _, hfaults, htexts⟩ := descent_ends (Table.arithmetic (Signed 8))
  have hopened : ∃ q, Routine.operand.Gives (Table.arithmetic (Signed 8))
      (.start "(1 + 2".toList) (.error .unclosed) q := ⟨_, 14, by with_unfolding_all rfl⟩
  have hclosed : Expr.read (Table.arithmetic (Signed 8)) "1 + 2) * 3".toList =
      .error (.trailing ") * 3".toList) := by
    with_unfolding_all rfl
  have hneg : Expr.read (Table.arithmetic (Signed 8)) "-(1)".toList =
      .ok (.neg (.num (.wrap 1))) := by
    with_unfolding_all rfl
  obtain ⟨q, hgives⟩ := hopened
  obtain ⟨_, _, _, hclosing⟩ := htexts "1 + 2) * 3".toList
  obtain ⟨_, _, hnodes, _⟩ := htexts "-(1)".toList
  exact ⟨⟨q, hgives, (hfaults _ _ _ _ hgives).1 rfl⟩, (hclosing _ hclosed).2.2 (by decide),
    _, hneg, hnodes _ hneg⟩

end Descent

end InfixCalculator
