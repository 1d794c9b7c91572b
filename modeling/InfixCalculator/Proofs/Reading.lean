import InfixCalculator.Expr.Reader.Step
import InfixCalculator.Proofs.Text.Run

/-!
# Reading the parts of an expression

The reader is one loop over the rest of a text, while an expression has parts.
Here the loop is cut into the parts it reads: an operand, a sequence of
operations and a whole chain are texts on which a run takes a known way, in
whatever place they stand.

* `ReadsOperand`, `ReadsOperations`, `ReadsChain`: what a text of each kind does.
* `readsOperand_literal`, `ReadsOperand.neg`, `ReadsChain.group`: how an operand is made.
* `ReadsOperations.cons`, `ReadsOperand.chain`: how a chain is made of operands.
* `ReadsChain.read_eq`: a chain that is a whole text is the expression of that text.
-/

namespace InfixCalculator

variable {α : Type}

/-! ## The operators of a chain -/

/-- A chain with more operators and operands at its right end. -/
def Grouping.attachAll (g : Grouping α) (links : List (Operator α × Expr α)) : Grouping α :=
  links.foldl (fun h p => h.attach p.1 p.2) g

/-- The operators of operations and of the operands in them. -/
def operatorsOfLinks (links : List (Operator α × Expr α)) : List (Operator α) :=
  links.flatMap fun p => p.1 :: p.2.operators

theorem Grouping.operators_attach (g : Grouping α) (op : Operator α) (e : Expr α) :
    (g.attach op e).toExpr.operators = g.toExpr.operators ++ op :: e.operators := by
  induction g with
  | atom x => rfl
  | node l m r _ ih =>
    unfold attach
    split
    · simp [toExpr, Expr.operators, ih]
    · simp [toExpr, Expr.operators]

theorem Grouping.operators_attachAll (g : Grouping α) (links : List (Operator α × Expr α)) :
    (g.attachAll links).toExpr.operators = g.toExpr.operators ++ operatorsOfLinks links := by
  induction links generalizing g with
  | nil => simp [attachAll, operatorsOfLinks]
  | cons p links ih =>
    have hcons : g.attachAll (p :: links) = (g.attach p.1 p.2).attachAll links := rfl
    rw [hcons, ih, operators_attach, operatorsOfLinks, operatorsOfLinks, List.flatMap_cons]
    simp

/-- A symbol that the reader can meet in a text. -/
def Usable (symbol : List Char) : Prop := symbol ≠ [] ∧ ∀ c ∈ symbol, isOperatorChar c = true

instance (symbol : List Char) : Decidable (Usable symbol) :=
  decidable_of_iff (symbol ≠ [] ∧ symbol.all isOperatorChar = true)
    (and_congr_right' List.all_eq_true)

theorem Usable.solid {symbol : List Char} (h : Usable symbol) : Solid symbol := by
  obtain ⟨c, rest, rfl⟩ := List.exists_cons_of_ne_nil h.1
  exact solid_cons (isBlank_of_isOperatorChar (h.2 c List.mem_cons_self)) rest

/-- A symbol ends where blanks follow. -/
theorem Usable.maximal {symbol v : List Char} (h : Usable symbol) (hne : v ≠ []) (hv : Blank v)
    (rest : List Char) : Maximal isOperatorChar symbol (v ++ rest) := by
  refine ⟨h.2, ?_⟩
  obtain ⟨c, w, rfl⟩ := List.exists_cons_of_ne_nil hne
  have hc : isBlank c = true := hv c List.mem_cons_self
  intro d hd
  cases hd
  simp [isOperatorChar, hc]

/-- All operators are those of the table, under symbols that can be met. -/
def Table.Binds (t : Table α) (ops : List (Operator α)) : Prop :=
  ∀ op ∈ ops, t.get? op.symbol = some op ∧ Usable op.symbol

theorem Table.binds_append {t : Table α} {l r : List (Operator α)} :
    t.Binds (l ++ r) ↔ t.Binds l ∧ t.Binds r := List.forall_mem_append

theorem Table.binds_cons {t : Table α} {op : Operator α} {ops : List (Operator α)} :
    t.Binds (op :: ops) ↔ (t.get? op.symbol = some op ∧ Usable op.symbol) ∧ t.Binds ops :=
  List.forall_mem_cons

theorem Table.binds_bin {t : Table α} {l r : Expr α} {op : Operator α} :
    t.Binds (Expr.bin l op r).operators ↔
      t.Binds l.operators ∧ (t.get? op.symbol = some op ∧ Usable op.symbol) ∧
        t.Binds r.operators :=
  Expr.forall_operators_bin

theorem Table.Binds.usable {t : Table α} {ops : List (Operator α)} (h : t.Binds ops) :
    ∀ op ∈ ops, Usable op.symbol ∧ (t.get? op.symbol).isSome = true := by
  intro op hop
  obtain ⟨hget, hsymbol⟩ := h op hop
  exact ⟨hsymbol, by rw [hget]; rfl⟩

/-! ## Readings -/

/-- What is known of a result shows that there is one. -/
theorem exists_ok_of_map {ε β γ : Type} {r : Except ε β} {g : β → γ} {y : γ}
    (h : r.toOption.map g = some y) : ∃ x, r = .ok x ∧ g x = y := by
  cases r with
  | ok x => exact ⟨x, rfl, Option.some.inj h⟩
  | error _ => cases h

namespace Reading

/-- The reading after several operators have been met. -/
def meetAll (ops : List (Operator α)) (r : Reading α) : Reading α :=
  { r with operators := ops ++ r.operators }

theorem meet_meetAll (op : Operator α) (ops : List (Operator α)) (r : Reading α) :
    (r.meetAll ops).meet op = r.meetAll (op :: ops) := rfl

theorem meet_eq_meetAll (op : Operator α) (r : Reading α) : r.meet op = r.meetAll [op] := rfl

theorem meetAll_meetAll (ops ops' : List (Operator α)) (r : Reading α) :
    (r.meetAll ops').meetAll ops = r.meetAll (ops ++ ops') := by
  simp [meetAll, List.append_assoc]

end Reading

/-! ## Frames -/

namespace Frame

theorem repeat_neg (n : Nat) (e : Expr α) :
    n.repeat Expr.neg (.neg e) = .neg (n.repeat Expr.neg e) := by
  induction n with
  | zero => rfl
  | succ n ih => exact congrArg Expr.neg ih

theorem complete_negate (f : Frame α) (e : Expr α) : f.negate.complete e = f.complete (.neg e) := by
  have h : f.negate.operand e = f.operand (.neg e) := (repeat_neg f.minuses e).symm
  unfold complete
  rw [h]
  rfl

@[simp] theorem complete_start (e : Expr α) : (start : Frame α).complete e = .atom e := rfl

@[simp] theorem complete_after (chain : Grouping α) (op : Operator α) (e : Expr α) :
    (after chain op).complete e = chain.attach op e := rfl

end Frame

/-! ## Parts of a text -/

section Parts

open Reader

variable [Number α] {t : Table α}

/-- Where an operand is due and `rest` follows, the text `w` is read as the operand `e`. -/
def ReadsOperand (t : Table α) (w : List Char) (e : Expr α) (rest : List Char) : Prop :=
  ∀ (frame : Frame α) (outer : List (Frame α)),
    run t (.operand frame outer) (w ++ rest) =
      (run t (.operator (frame.complete e) outer) (dropBlank rest)).meetAll e.operators

/-- After an operand and before `rest`, the text `w` is read as operations. -/
def ReadsOperations (t : Table α) (w : List Char) (links : List (Operator α × Expr α))
    (rest : List Char) : Prop :=
  ∀ (g : Grouping α) (outer : List (Frame α)),
    run t (.operator g outer) (dropBlank (w ++ rest)) =
      (run t (.operator (g.attachAll links) outer) (dropBlank rest)).meetAll
        (operatorsOfLinks links)

/-- Where a chain is due and `rest` follows, the text `w` is read as the chain `g`. -/
def ReadsChain (t : Table α) (w : List Char) (g : Grouping α) (rest : List Char) : Prop :=
  ∀ outer : List (Frame α),
    run t (.operand .start outer) (dropBlank (w ++ rest)) =
      (run t (.operator g outer) (dropBlank rest)).meetAll g.toExpr.operators

/-! ## Operands -/

theorem readsOperand_literal {literal rest : List Char} {x : α} (hne : literal ≠ [])
    (hmax : Maximal isLiteralChar literal rest) (hopening : literal.head? ≠ some '(')
    (hneg : startsNegation (literal ++ rest) = false) (hx : Number.read? literal = some x) :
    ReadsOperand t literal (.num x) rest := by
  intro frame outer
  rw [run_literal frame outer hne hmax.takeWhile_eq hopening hneg hx]
  rfl

theorem ReadsOperand.neg {w rest : List Char} {e : Expr α} (h : ReadsOperand t w e rest)
    (hneg : startsNegation ('-' :: (w ++ rest)) = true) :
    ReadsOperand t ('-' :: w) (.neg e) rest := by
  intro frame outer
  rw [List.cons_append, run_negation frame outer hneg, h frame.negate outer,
    Frame.complete_negate]
  rfl

theorem ReadsChain.group {w rest : List Char} {g : Grouping α}
    (h : ReadsChain t w g (')' :: rest)) :
    ReadsOperand t ('(' :: (w ++ [')'])) g.toExpr rest := by
  intro frame outer
  have hw : w ++ [')'] ++ rest = w ++ ')' :: rest := by simp
  rw [List.cons_append, run_opening, hw, h, dropBlank_closing, run_closing]

/-! ## Operations -/

theorem readsOperations_nil (rest : List Char) : ReadsOperations t [] [] rest := by
  intro g outer
  rfl

theorem ReadsOperations.blank {v w rest : List Char} {links : List (Operator α × Expr α)}
    (hv : Blank v) (h : ReadsOperations t w links rest) :
    ReadsOperations t (v ++ w) links rest := by
  intro g outer
  rw [List.append_assoc, dropBlank_append hv]
  exact h g outer

/-- An operator, blanks and an operand before operations make one operation more. -/
theorem ReadsOperations.cons {symbol w x u rest : List Char} {op : Operator α} {e : Expr α}
    {links : List (Operator α × Expr α)} (h : ReadsOperations t u links rest)
    (hx : ReadsOperand t x e (u ++ rest)) (hne : symbol ≠ [])
    (hmax : Maximal isOperatorChar symbol (w ++ x ++ u ++ rest)) (hop : t.get? symbol = some op)
    (hw : Blank w) (hsolid : Solid x) :
    ReadsOperations t (symbol ++ w ++ x ++ u) ((op, e) :: links) rest := by
  intro g outer
  have htext : symbol ++ w ++ x ++ u ++ rest = symbol ++ (w ++ x ++ u ++ rest) := by simp
  have hsymbol : Solid symbol := Usable.solid ⟨hne, hmax.all⟩
  have hoperand : dropBlank (w ++ x ++ u ++ rest) = x ++ (u ++ rest) := by
    have hassoc : w ++ x ++ u ++ rest = w ++ (x ++ (u ++ rest)) := by simp
    rw [hassoc, dropBlank_append hw, hsolid.dropBlank_append]
  calc run t (.operator g outer) (dropBlank (symbol ++ w ++ x ++ u ++ rest))
      = (run t (.operand (.after g op) outer) (x ++ (u ++ rest))).meet op := by
        rw [htext, hsymbol.dropBlank_append, run_operator g outer hne hmax.takeWhile_eq hop,
          hoperand]
    _ = ((run t (.operator (g.attach op e) outer) (dropBlank (u ++ rest))).meetAll
          e.operators).meet op := by
        rw [hx, Frame.complete_after]
    _ = (run t (.operator (g.attachAll ((op, e) :: links)) outer) (dropBlank rest)).meetAll
          (operatorsOfLinks ((op, e) :: links)) := by
        rw [h, Reading.meetAll_meetAll, Reading.meet_meetAll]
        rfl

/-! ## Chains -/

/-- An operand with operations after it is a chain. -/
theorem ReadsOperand.chain {w x u rest : List Char} {e : Expr α}
    {links : List (Operator α × Expr α)} (hx : ReadsOperand t x e (u ++ rest))
    (hu : ReadsOperations t u links rest) (hw : Blank w) (hsolid : Solid x) :
    ReadsChain t (w ++ x ++ u) ((Grouping.atom e).attachAll links) rest := by
  intro outer
  have htext : w ++ x ++ u ++ rest = w ++ (x ++ (u ++ rest)) := by simp
  rw [htext, dropBlank_append hw, hsolid.dropBlank_append, hx, Frame.complete_start, hu,
    Reading.meetAll_meetAll, Grouping.operators_attachAll]
  rfl

theorem ReadsOperand.single {w rest : List Char} {e : Expr α} (h : ReadsOperand t w e rest)
    (hsolid : Solid w) : ReadsChain t w (.atom e) rest := by
  have hchain : ReadsChain t ([] ++ w ++ []) ((Grouping.atom e).attachAll []) rest :=
    h.chain (readsOperations_nil rest) blank_nil hsolid
  rwa [List.nil_append, List.append_nil] at hchain

/-- A text that is read as a chain and nothing else is the expression of that chain. -/
theorem ReadsChain.read_eq {w : List Char} {g : Grouping α} (h : ReadsChain t w g []) :
    Reader.read t w = ⟨g.toExpr.operators, .ok g.toExpr⟩ := by
  have hrun := h []
  have hnil : dropBlank [] = [] := rfl
  rw [List.append_nil, hnil] at hrun
  rw [Reader.read, hrun, run_operator_nil]
  simp [Reading.meetAll, Reading.done]

theorem ReadsChain.expr_read_eq {w : List Char} {g : Grouping α} (h : ReadsChain t w g []) :
    Expr.read t w = .ok g.toExpr := by
  rw [Expr.read, h.read_eq]

end Parts

end InfixCalculator
