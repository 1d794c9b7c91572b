import InfixCalculator.Proofs.Grouping
import InfixCalculator.Proofs.RoundTrip

/-!
# Chains in a text

A chain in a text is an operand and then operator symbols and operands in turn,
with blanks around every symbol.  What each operand is on its own is known; what
is told here is how the reader groups them.

* `IsOperand`: a literal, an accepted text in parentheses, or a sign before such a text.
* `IsOperand.reads`: it is read as the same operand wherever it stands.
* `Chain`: a chain with the expressions of its operands.
* `read_chain`: the reader finds the one grouped tree of a chain.
-/

namespace InfixCalculator

variable {α : Type} [Number α] {t : Table α}

/-! ## Operands -/

/-- A literal, an accepted text in parentheses, or a sign before such a text. -/
inductive IsOperand (t : Table α) : List Char → Prop
  | literal {text : List Char} {x : α} : text ≠ [] → (∀ c ∈ text, isLiteralChar c = true) →
      text.head? ≠ some '(' → startsNegation text = false → Number.read? text = some x →
      IsOperand t text
  | group {text : List Char} {e : Expr α} : Expr.read t text = .ok e →
      IsOperand t ('(' :: (text ++ [')']))
  | negation {text : List Char} : startsNegation ('-' :: text) = true → IsOperand t text →
      IsOperand t ('-' :: text)

theorem IsOperand.solid {text : List Char} (h : IsOperand t text) : Solid text := by
  cases h with
  | literal hne hall _ _ _ =>
    obtain ⟨c, l, rfl⟩ := List.exists_cons_of_ne_nil hne
    exact solid_cons (isBlank_of_isLiteralChar (hall c (by simp))) l
  | group _ => exact solid_cons (by decide) _
  | negation _ _ => exact solid_cons (by decide) _

theorem IsOperand.reads (hminus : NoLoneMinus α) {text : List Char} (h : IsOperand t text) :
    ∃ e, ∀ rest, Apart rest → ReadsOperand t text e rest := by
  induction h with
  | @literal text x hne hall hopening hneg hx =>
    refine ⟨.num x, ?_⟩
    intro rest hrest
    have hneg' : startsNegation (text ++ rest) = false := by
      rwa [startsNegation_append hne (ne_minus_of_read? hminus hx)]
    exact readsOperand_literal hne ⟨hall, hrest⟩ hopening hneg' hx
  | @group text e h =>
    obtain ⟨g, _, _, hr⟩ := readsChain_of_read h
    refine ⟨g.toExpr, ?_⟩
    intro rest _
    exact (hr (')' :: rest) (Or.inr ⟨hminus, apart_closing rest⟩)).group
  | @negation text hneg _ ih =>
    obtain ⟨e, hr⟩ := ih
    refine ⟨.neg e, ?_⟩
    intro rest hrest
    refine (hr rest hrest).neg ?_
    obtain ⟨c, tail, htext, hc⟩ := startsNegation_iff.mp hneg
    cases htext
    exact startsNegation_iff.mpr ⟨c, tail ++ rest, rfl, hc⟩

/-- An operand in a text with the expression that the text is on its own. -/
structure Chain.Operand (t : Table α) where
  text : List Char
  expr : Expr α
  isOperand : IsOperand t text
  read_eq : Expr.read t text = .ok expr

theorem Chain.Operand.reads (hminus : NoLoneMinus α) (x : Chain.Operand t) {rest : List Char}
    (hrest : Apart rest) : ReadsOperand t x.text x.expr rest := by
  obtain ⟨e, hr⟩ := x.isOperand.reads hminus
  have hread : Expr.read t x.text = .ok e :=
    ((hr [] apart_nil).single x.isOperand.solid).expr_read_eq
  rw [x.read_eq] at hread
  cases hread
  exact hr rest hrest

/-- A number as an operand. -/
def Chain.Operand.number (t : Table α) (x : α) (hx : Legible x) : Chain.Operand t where
  text := Number.text x
  expr := .num x
  isOperand := by
    refine .literal hx.ne_nil hx.literal hx.opening ?_ hx.read
    have hsign := hx.sign []
    rwa [List.append_nil] at hsign
  read_eq := by
    refine read_render_of_legible (e := .num x) ?_ ?_
    · intro y hy
      cases List.mem_singleton.mp hy
      exact hx
    · intro op hop
      cases hop

/-! ## Links -/

/-- An operator symbol with blanks on both sides and the operand after it. -/
structure Chain.Link (t : Table α) where
  before : List Char
  op : Operator α
  after : List Char
  operand : Chain.Operand t
  before_ne_nil : before ≠ []
  blank_before : Blank before
  after_ne_nil : after ≠ []
  blank_after : Blank after
  get?_eq : t.get? op.symbol = some op
  usable : Usable op.symbol

namespace Chain.Link

def text (p : Chain.Link t) : List Char := p.before ++ p.op.symbol ++ p.after ++ p.operand.text

/-- The operator with the expression of the operand. -/
def pair (p : Chain.Link t) : Operator α × Expr α := (p.op, p.operand.expr)

theorem apart_texts (links : List (Chain.Link t)) : Apart (links.flatMap text) := by
  cases links with
  | nil => exact apart_nil
  | cons p links =>
    rw [List.flatMap_cons, text, List.append_assoc, List.append_assoc, List.append_assoc]
    exact apart_of_blank p.before_ne_nil p.blank_before _

theorem reads (hminus : NoLoneMinus α) (links : List (Chain.Link t)) :
    ReadsOperations t (links.flatMap text) (links.map pair) [] := by
  induction links with
  | nil => exact readsOperations_nil []
  | cons p links ih =>
    have hmax : Maximal isOperatorChar p.op.symbol
        (p.after ++ p.operand.text ++ links.flatMap text ++ []) := by
      rw [List.append_assoc, List.append_assoc]
      exact p.usable.maximal p.after_ne_nil p.blank_after _
    have hoperand : ReadsOperand t p.operand.text p.operand.expr (links.flatMap text ++ []) := by
      rw [List.append_nil]
      exact p.operand.reads hminus (apart_texts links)
    have hlink := ih.cons hoperand p.usable.1 hmax p.get?_eq p.blank_after
      p.operand.isOperand.solid
    have hblank := hlink.blank p.blank_before
    rw [List.flatMap_cons, text]
    simpa [List.append_assoc, pair] using hblank

end Chain.Link

/-! ## The tree of a chain -/

/-- An operand and the operations after it. -/
structure Chain (t : Table α) where
  first : Chain.Operand t
  links : List (Chain.Link t)

namespace Chain

def text (c : Chain t) : List Char := c.first.text ++ c.links.flatMap Link.text

/-- The operands and operators from left to right. -/
def inorder (c : Chain t) : List (Expr α ⊕ Operator α) :=
  .inl c.first.expr :: c.links.flatMap fun p => [.inr p.op, .inl p.operand.expr]

theorem inorder_eq_sequence (c : Chain t) :
    c.inorder = Grouping.sequence c.first.expr (c.links.map Link.pair) := by
  rw [inorder, Grouping.sequence, List.flatMap_map]
  rfl

theorem reads (hminus : NoLoneMinus α) (c : Chain t) :
    ReadsChain t c.text ((Grouping.atom c.first.expr).attachAll (c.links.map Link.pair)) [] := by
  have hfirst : ReadsOperand t c.first.text c.first.expr (c.links.flatMap Link.text ++ []) := by
    rw [List.append_nil]
    exact c.first.reads hminus (Link.apart_texts c.links)
  have hchain := hfirst.chain (Link.reads hminus c.links) blank_nil c.first.isOperand.solid
  rwa [List.nil_append] at hchain

end Chain

/-- **The reader groups a chain in the one way that is grouped**: there is a tree of the operands
and operators in their order in which every operator yields to the left spine of its right part and
none on the right spine of its left part yields to it, there is no other, and it is what is read.
If a `-` alone were a number, it would be one on its own and a sign in a chain. -/
theorem read_chain (hminus : NoLoneMinus α) (t : Table α) (c : Chain t) :
    ∃ g : Grouping α, (g.inorder = c.inorder ∧ g.Grouped) ∧
      (∀ g' : Grouping α, g'.inorder = c.inorder ∧ g'.Grouped → g' = g) ∧
      Expr.read t c.text = .ok g.toExpr := by
  rw [c.inorder_eq_sequence]
  refine ⟨(Grouping.atom c.first.expr).attachAll (c.links.map Chain.Link.pair), ?_, ?_, ?_⟩
  · exact Grouping.grouped_iff.mpr rfl
  · intro g' h
    exact Grouping.grouped_iff.mp h
  · exact (c.reads hminus).expr_read_eq

/-! ### A chain of both associativities -/

def rightSub : Operator (Signed 8) := ⟨['@'], Number.sub, 0, .right⟩

def leftAdd : Operator (Signed 8) := ⟨['&'], Number.add, 0, .left⟩

def mixed : Table (Signed 8) := .ofList [rightSub, leftAdd]

/-- An operator between single blanks and a number. -/
def Chain.Link.spaced (op : Operator (Signed 8)) (x : Signed 8)
    (hop : mixed.get? op.symbol = some op) (hsymbol : Usable op.symbol) : Chain.Link mixed where
  before := [' ']
  op := op
  after := [' ']
  operand := .number mixed x (legible_signed x)
  before_ne_nil := by decide
  blank_before := blank_space
  after_ne_nil := by decide
  blank_after := blank_space
  get?_eq := hop
  usable := hsymbol

def mixedChain : Chain mixed where
  first := .number mixed ⟨1, by decide, by decide⟩ (legible_signed _)
  links := [.spaced rightSub ⟨2, by decide, by decide⟩ rfl (by decide),
    .spaced rightSub ⟨3, by decide, by decide⟩ rfl (by decide),
    .spaced leftAdd ⟨4, by decide, by decide⟩ rfl (by decide)]

/-- `(1 @ (2 @ 3)) & 4` -/
def mixedGrouping : Grouping (Signed 8) :=
  .node
    (.node (.atom (.num ⟨1, by decide, by decide⟩)) rightSub
      (.node (.atom (.num ⟨2, by decide, by decide⟩)) rightSub
        (.atom (.num ⟨3, by decide, by decide⟩))))
    leftAdd (.atom (.num ⟨4, by decide, by decide⟩))

theorem read_chain_mixedChain :
    NoLoneMinus (Signed 8) ∧
      Expr.read mixed "1 @ 2 @ 3 & 4".toList = .ok mixedGrouping.toExpr := by
  have hminus : NoLoneMinus (Signed 8) := noLoneMinus_signed 8
  have htext : mixedChain.text = "1 @ 2 @ 3 & 4".toList := by decide
  have hgrouped : mixedGrouping.Grouped := by
    simp [mixedGrouping, Grouping.Grouped, Grouping.leftSpine, Grouping.rightSpine]
    decide
  obtain ⟨g, _, hunique, hread⟩ := read_chain hminus mixed mixedChain
  refine ⟨hminus, ?_⟩
  rw [← htext, hread, hunique mixedGrouping ⟨rfl, hgrouped⟩]

end InfixCalculator
