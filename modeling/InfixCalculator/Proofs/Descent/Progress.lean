import InfixCalculator.Proofs.Descent

/-!
# Progress of a descent

Every node of an expression is paid for with a character: a number with its
literal, a negation with its `-`, an operation with its symbol.  So a function
that has a value has taken something away, and the functions cannot call each
other for ever.  They stop at a fault without asking for characters that are not
there.

* `Advanced`: what a value says of the positions before and after it.
* `Progress`: what an outcome says.
* `progressing`: the functions come to an end, with progress, by induction on the depth.
* `Routine.ends`: how deep the calls may have to nest, told by the length of the text.
* `Gives.progress`, `Gives.unfinished_eq_false`: what is known of an outcome.
-/

namespace InfixCalculator.Descent

variable {α : Type} {p q : Position α} {e : Expr α}

/-! ## Values and faults -/

/-- From `p`, where `given` nodes are there already, a descent has come to `e` at `q`: there are new
nodes, and each of them has cost a character. -/
structure Advanced (given : Nat) (p : Position α) (e : Expr α) (q : Position α) : Prop where
  suffix : q.rest <:+ p.rest
  more : given < e.subterms.length
  paid : e.subterms.length + q.rest.length ≤ given + p.rest.length

namespace Advanced

variable {given : Nat}

theorem length_lt (h : Advanced given p e q) : q.rest.length < p.rest.length := by
  have hmore := h.more
  have hpaid := h.paid
  omega

theorem trans {e' : Expr α} {q' : Position α} (h : Advanced given p e q)
    (h' : Advanced e.subterms.length q e' q') : Advanced given p e' q' := by
  refine ⟨h'.suffix.trans h.suffix, Nat.lt_trans h.more h'.more, ?_⟩
  have hpaid := h.paid
  have hpaid' := h'.paid
  omega

theorem dropBlank (h : Advanced given p e q) : Advanced given p e q.dropBlank := by
  refine ⟨(List.dropWhile_suffix _).trans h.suffix, h.more, ?_⟩
  have hle := length_dropBlank_le q.rest
  have hpaid := h.paid
  rw [Position.rest_dropBlank]
  omega

theorem of_dropBlank (h : Advanced given p.dropBlank e q) : Advanced given p e q := by
  refine ⟨h.suffix.trans (List.dropWhile_suffix _), h.more, ?_⟩
  have hle := length_dropBlank_le p.rest
  have hpaid := h.paid
  rw [Position.rest_dropBlank] at hpaid
  omega

theorem of_drop {count : Nat} (h : Advanced given (p.drop count) e q) : Advanced given p e q := by
  refine ⟨h.suffix.trans (List.drop_suffix count p.rest), h.more, ?_⟩
  have hpaid := h.paid
  rw [Position.rest_drop, List.length_drop] at hpaid
  omega

/-- Taking more away costs more than it has to. -/
theorem drop (h : Advanced given p e q) (count : Nat) : Advanced given p e (q.drop count) := by
  refine ⟨(List.drop_suffix count q.rest).trans h.suffix, h.more, ?_⟩
  have hpaid := h.paid
  rw [Position.rest_drop, List.length_drop]
  omega

theorem num (x : α) {count : Nat} (hpos : 0 < count) (hle : count ≤ p.rest.length) :
    Advanced 0 p (.num x) (p.drop count) := by
  refine ⟨List.drop_suffix count p.rest, Nat.zero_lt_one, ?_⟩
  rw [Position.rest_drop, List.length_drop]
  show 1 + _ ≤ _
  omega

/-- A `-` pays for its node. -/
theorem neg (h : Advanced 0 (p.drop 1) e q) (hpos : 0 < p.rest.length) :
    Advanced 0 p (.neg e) q := by
  refine ⟨h.of_drop.suffix, Nat.succ_pos _, ?_⟩
  have hpaid := h.paid
  rw [Position.rest_drop, List.length_drop] at hpaid
  show e.subterms.length + 1 + _ ≤ _
  omega

/-- A symbol pays for its node. -/
theorem bin {op : Operator α} {right : Expr α} {count : Nat} (first : Expr α)
    (h : Advanced 0 ((p.drop count).meet op) right q) (hpos : 0 < count)
    (hle : count ≤ p.rest.length) :
    Advanced first.subterms.length p (.bin first op right) q := by
  have hnodes : (Expr.bin first op right).subterms.length =
      first.subterms.length + right.subterms.length + 1 := by
    rw [Expr.subterms, List.length_cons, List.length_append]
  have hpaid := h.paid
  rw [Position.rest_meet, Position.rest_drop, List.length_drop] at hpaid
  refine ⟨h.suffix.trans (List.drop_suffix count p.rest), ?_, ?_⟩ <;> omega

end Advanced

/-- Where the functions stop.  That a `)` is missing is told at the end of the text only; there are
always as many characters as are asked for; and what follows a chain is not their concern. -/
def Stopped : Fault → Position α → Prop
  | .unclosed, q => q.rest = []
  | .shortRest .., _ => False
  | .trailing _, _ => False
  | _, _ => True

/-- What an outcome says of the position before it, where `given` nodes are there already. -/
def Progress (given : Nat) (p : Position α) : Except Fault (Expr α) → Position α → Prop
  | .ok e, q => Advanced given p e q
  | .error fault, q => Stopped fault q

/-- The same, and a value leaves the cursor where the chain does not go on. -/
def ChainProgress (goesOn : Cursor → Bool) (given : Nat) (p : Position α) :
    Except Fault (Expr α) → Position α → Prop
  | .ok e, q => Advanced given p e q ∧ goesOn q.cursor = false
  | .error fault, q => Stopped fault q

/-! ## Messages -/

theorem eq_unclosed_of_message {fault : Fault}
    (h : fault.message = "expected ), found end of input") : fault = .unclosed := by
  have hprefix : "expected ), found end of input".toList <+: fault.message.toList :=
    ⟨[], by rw [List.append_nil, h]⟩
  rcases Fault.opening_of_prefix_message hprefix with h | h <;> cases fault <;>
    simp [Fault.opening] at h ⊢

theorem exists_shortRest_of_start {fault : Fault}
    (h : "cannot consume ".toList <+: fault.message.toList) :
    ∃ count rest, fault = .shortRest count rest := by
  rcases Fault.opening_of_prefix_message h with h | h <;> cases fault <;>
    simp [Fault.opening] at h ⊢

theorem exists_trailing_of_start {fault : Fault}
    (h : "unexpected '".toList <+: fault.message.toList) : ∃ rest, fault = .trailing rest := by
  rcases Fault.opening_of_prefix_message h with h | h <;> cases fault <;>
    simp [Fault.opening] at h ⊢

theorem Stopped.rest_eq_nil {fault : Fault} (h : Stopped fault q)
    (hmessage : fault.message = "expected ), found end of input") : q.rest = [] := by
  rw [eq_unclosed_of_message hmessage] at h
  exact h

theorem Stopped.not_prefix_message {fault : Fault} (h : Stopped fault q) :
    ¬"cannot consume ".toList <+: fault.message.toList := by
  intro hprefix
  obtain ⟨count, rest, rfl⟩ := exists_shortRest_of_start hprefix
  exact h

/-! ## Functions -/

/-- Where a chain ends, the text ends as well or a `)` follows. -/
theorem unfinished_eq_false_iff {c : Cursor} :
    unfinished c = false ↔ c.rest = [] ∨ ∃ tail, c.rest = ')' :: tail := by
  obtain ⟨rest⟩ := c
  cases rest with
  | nil => simp [unfinished, Cursor.isEmpty]
  | cons c rest => simp [unfinished, Cursor.isEmpty, Cursor.atClosing, Cursor.first?]

/-- The two ends of a chain, as the cursor tells them apart. -/
theorem closing_cases {c : Cursor} (h : unfinished c = false) :
    (c.rest = [] ∧ ¬c.atClosing = true) ∨ ∃ tail, c.rest = ')' :: tail ∧ c.atClosing = true := by
  rcases unfinished_eq_false_iff.mp h with hnil | ⟨tail, hclosing⟩
  · refine Or.inl ⟨hnil, ?_⟩
    rw [Cursor.atClosing, Cursor.first?, hnil]
    decide
  · refine Or.inr ⟨tail, hclosing, ?_⟩
    rw [Cursor.atClosing, Cursor.first?, hclosing]
    rfl

theorem exists_rest_of_first? {c : Char} (h : p.cursor.first? = some c) :
    ∃ tail, p.rest = c :: tail := List.head?_eq_some_iff.mp h

theorem length_pos_of_rest {c : Char} {tail : List Char} (h : p.rest = c :: tail) :
    0 < p.rest.length := by
  rw [h]
  exact Nat.succ_pos _

variable [Number α]

/-- The functions come to an end at a depth that is enough for the text, with progress. -/
structure Progressing (t : Table α) (depth : Nat) : Prop where
  operand : ∀ p : Position α, 2 * p.rest.length + 1 ≤ depth →
    Ends (operand t depth) p (Progress 0 p)
  operation : ∀ (first : Expr α) (p : Position α), 2 * p.rest.length + 1 ≤ depth →
    Ends (operation t first depth) p (Progress first.subterms.length p)
  chainWhile : ∀ goesOn (p : Position α), 2 * p.rest.length + 2 ≤ depth →
    Ends (chainWhile t goesOn depth) p (ChainProgress goesOn 0 p)
  extendWhile : ∀ goesOn given (p q : Position α) (first : Expr α), Advanced given p first q →
    2 * q.rest.length + 2 ≤ depth →
    Ends (extendWhile t goesOn first depth) q (ChainProgress goesOn given p)

variable {t : Table α} {depth : Nat}

theorem operand_ends (h : Progressing t depth) (hp : 2 * p.rest.length + 1 ≤ depth + 1) :
    Ends (operand t (depth + 1)) p (Progress 0 p) := by
  rw [operand, ends_look]
  split
  · exact ends_throw trivial
  · rename_i c hfirst
    obtain ⟨tail, hrest⟩ := exists_rest_of_first? hfirst
    have hpos := length_pos_of_rest hrest
    have hdrop : 2 * (p.drop 1).rest.length + 2 ≤ depth := by
      rw [Position.rest_drop, List.length_drop]
      omega
    split
    · rw [ends_take hpos]
      refine (h.operand (p.drop 1) (by omega)).bind ?_ fun _ _ hstop => hstop
      intro e q hq
      exact ends_pure (Advanced.neg hq hpos)
    · split
      · rw [ends_take hpos]
        refine (h.chainWhile unfinished (p.drop 1) hdrop).bind ?_ fun _ _ hstop => hstop
        rintro e q ⟨hq, hend⟩
        rw [ends_look]
        rcases closing_cases hend with ⟨hnil, hclosing⟩ | ⟨tail, hrest, hclosing⟩
        · rw [if_neg hclosing]
          exact ends_throw hnil
        · rw [if_pos hclosing, ends_take (length_pos_of_rest hrest)]
          exact ends_pure (hq.of_drop.drop 1)
      · rw [ends_takeLiteral]
        split
        · exact ends_throw trivial
        · rename_i hne
          split
          · exact ends_throw trivial
          · exact ends_pure (.num _ (List.length_pos_iff.mpr hne) (length_takeWhile_le _ _))

theorem operation_ends (h : Progressing t depth) (first : Expr α)
    (hp : 2 * p.rest.length + 1 ≤ depth + 1) :
    Ends (operation t first (depth + 1)) p (Progress first.subterms.length p) := by
  have hle : p.cursor.peekOperator.length ≤ p.rest.length := length_takeWhile_le _ _
  rw [operation, ends_look]
  dsimp only
  split
  · exact ends_throw trivial
  · rename_i hne
    have hpos : 0 < p.cursor.peekOperator.length := List.length_pos_iff.mpr hne
    rw [ends_take hle]
    split
    · exact ends_throw trivial
    · rename_i op _
      rw [ends_meet]
      have hdrop : 2 * ((p.drop p.cursor.peekOperator.length).meet op).rest.length + 2 ≤ depth := by
        rw [Position.rest_meet, Position.rest_drop, List.length_drop]
        omega
      refine (h.chainWhile _ _ hdrop).bind ?_ fun _ _ hstop => hstop
      rintro right q ⟨hq, _⟩
      exact ends_pure (hq.bin first hpos hle)

theorem extendWhile_ends (h : Progressing t depth) (goesOn : Cursor → Bool) {given : Nat}
    {first : Expr α} (hfirst : Advanced given p first q)
    (hq : 2 * q.rest.length + 2 ≤ depth + 1) :
    Ends (extendWhile t goesOn first (depth + 1)) q (ChainProgress goesOn given p) := by
  rw [extendWhile, ends_look]
  split
  · refine (h.operation first q (by omega)).bind ?_ fun _ _ hstop => hstop
    intro e q' hq'
    have hlt := hq'.dropBlank.length_lt
    rw [ends_dropBlank]
    exact h.extendWhile goesOn given p _ e (hfirst.trans hq'.dropBlank) (by omega)
  · rename_i hend
    exact ends_pure ⟨hfirst, Bool.not_eq_true _ ▸ hend⟩

theorem chainWhile_ends (h : Progressing t depth) (goesOn : Cursor → Bool)
    (hp : 2 * p.rest.length + 2 ≤ depth + 1) :
    Ends (chainWhile t goesOn (depth + 1)) p (ChainProgress goesOn 0 p) := by
  have hle := length_dropBlank_le p.rest
  rw [chainWhile, ends_dropBlank]
  refine (h.operand p.dropBlank (by rw [Position.rest_dropBlank]; omega)).bind ?_
    fun _ _ hstop => hstop
  intro first q hq
  have hfirst := hq.of_dropBlank.dropBlank
  have hlt := hfirst.length_lt
  rw [ends_dropBlank]
  exact h.extendWhile goesOn 0 p _ first hfirst (by omega)

/-- **The functions come to an end, with progress.** -/
theorem progressing (t : Table α) (depth : Nat) : Progressing t depth := by
  induction depth with
  | zero =>
    refine ⟨?_, ?_, ?_, ?_⟩
    · intro p hp
      omega
    · intro first p hp
      omega
    · intro goesOn p hp
      omega
    · intro goesOn given p q first _ hq
      omega
  | succ depth ih =>
    exact ⟨fun p hp => operand_ends ih hp, fun first p hp => operation_ends ih first hp,
      fun goesOn p hp => chainWhile_ends ih goesOn hp,
      fun goesOn given p q first hfirst hq => extendWhile_ends ih goesOn hfirst hq⟩

/-! ## Outcomes -/

namespace Routine

/-- The nodes that the function is given. -/
def nodes : Routine α → Nat
  | operation first => first.subterms.length
  | _ => 0

/-- A depth of twice the length of the text is enough. -/
theorem ends (t : Table α) (r : Routine α) (p : Position α) :
    Ends (r.descent t (2 * p.rest.length + 2)) p (Progress r.nodes p) := by
  have h := progressing t (2 * p.rest.length + 2)
  have hchain : ∀ goesOn, Ends (chainWhile t goesOn (2 * p.rest.length + 2)) p (Progress 0 p) := by
    intro goesOn
    refine (h.chainWhile goesOn p (Nat.le_refl _)).mono ?_
    rintro (fault | e) q hq
    · exact hq
    · exact hq.1
  cases r with
  | operand => exact h.operand p (by omega)
  | operation first => exact h.operation first p (by omega)
  | chain => exact hchain unfinished
  | rightOperand op => exact hchain (yieldsToNext t op)

theorem Gives.progress {r : Routine α} {result : Except Fault (Expr α)} (h : r.Gives t p result q) :
    Progress r.nodes p result q := by
  obtain ⟨result', q', hrun, hprogress⟩ := ends t r p
  obtain ⟨rfl, rfl⟩ := h.unique ⟨_, hrun⟩
  exact hprogress

/-- A chain ends at the end of the text or before a `)`. -/
theorem Gives.unfinished_eq_false (h : chain.Gives t p (.ok e) q) :
    unfinished q.cursor = false := by
  obtain ⟨result, q', hrun, hprogress⟩ := (progressing t _).chainWhile unfinished p (Nat.le_refl _)
  have hgives : chain.Gives t p result q' := ⟨2 * p.rest.length + 2, hrun⟩
  obtain ⟨rfl, rfl⟩ := h.unique hgives
  exact hprogress.2

end Routine

end InfixCalculator.Descent
