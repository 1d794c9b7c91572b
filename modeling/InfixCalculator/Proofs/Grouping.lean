import InfixCalculator.Proofs.Reading

/-!
# The grouping of a chain

A grouping is `Grouped` if every operator yields to the operators on the left
spine of its right part, and no operator on the right spine of its left part
yields to it.  One operand and operator after the other, `attach` builds such a
grouping, and there is no other one of the same chain: a grouped tree is what
attaching its own chain gives.

Of operators of the same priority only two that associate to the right yield to
each other, so an operator need not yield to one of two that do not yield to
each other.  What carries the proof is that yielding is transitive: an operator
that yields to a left spine yields to the whole tree below it.

* `yieldsTo_of_leftSpine`: that fact.
* `grouped_attachAll`: attaching keeps a tree grouped.
* `attachAll_links`: a grouped tree is made by attaching its chain.
* `grouped_iff`: the grouped tree of a chain is the one that attaching gives.
-/

namespace InfixCalculator.Grouping

variable {α : Type}

/-! ## Chains and spines -/

/-- The first operand. -/
def first : Grouping α → Expr α
  | atom e => e
  | node l _ _ => l.first

/-- The operators from left to right, each with the operand after it. -/
def links : Grouping α → List (Operator α × Expr α)
  | atom _ => []
  | node l op r => l.links ++ (op, r.first) :: r.links

/-- The operators on the way to the first operand. -/
def leftSpine : Grouping α → List (Operator α)
  | atom _ => []
  | node l op _ => op :: l.leftSpine

/-- The operators on the way to the last operand. -/
def rightSpine : Grouping α → List (Operator α)
  | atom _ => []
  | node _ op r => op :: r.rightSpine

/-- Every operator yields to those on the left spine of its right part, and is yielded to by none
on the right spine of its left part. -/
def Grouped : Grouping α → Prop
  | atom _ => True
  | node l op r => l.Grouped ∧ r.Grouped ∧ (∀ p ∈ r.leftSpine, op.yieldsTo p = true) ∧
      ∀ m ∈ l.rightSpine, m.yieldsTo op = false

theorem grouped_atom (e : Expr α) : (atom e).Grouped := trivial

theorem exists_mem_links_of_rightSpine {g : Grouping α} {op : Operator α}
    (h : op ∈ g.rightSpine) : ∃ e, (op, e) ∈ g.links := by
  induction g with
  | atom x => cases h
  | node l m r _ ih =>
    rcases List.mem_cons.mp h with rfl | h
    · exact ⟨r.first, by simp [links]⟩
    · obtain ⟨e, he⟩ := ih h
      exact ⟨e, by simp [links, he]⟩

/-! ## Attaching -/

theorem leftSpine_attach {op p : Operator α} {e : Expr α} {g : Grouping α}
    (h : p ∈ (g.attach op e).leftSpine) : p = op ∨ p ∈ g.leftSpine := by
  cases g with
  | atom x => exact Or.inl (List.mem_singleton.mp h)
  | node l m r =>
    unfold attach at h
    split at h
    · exact Or.inr h
    · exact List.mem_cons.mp h

/-- An operator that yields to the left spine of a grouped tree yields to all operators of it. -/
theorem yieldsTo_of_leftSpine {o : Operator α} {g : Grouping α} (hg : g.Grouped)
    (h : ∀ p ∈ g.leftSpine, o.yieldsTo p = true) : ∀ p ∈ g.links, o.yieldsTo p.1 = true := by
  induction g generalizing o with
  | atom x =>
    intro p hp
    cases hp
  | node l m r ihl ihr =>
    obtain ⟨hl, hr, hright, _⟩ := hg
    have hm : o.yieldsTo m = true := h m (List.mem_cons_self ..)
    intro p hp
    rcases List.mem_append.mp hp with hp | hp
    · exact ihl hl (fun q hq => h q (List.mem_cons_of_mem m hq)) p hp
    · rcases List.mem_cons.mp hp with rfl | hp
      · exact hm
      · exact Operator.yieldsTo_trans hm (ihr hr hright p hp)

theorem grouped_attach {g : Grouping α} (hg : g.Grouped) (op : Operator α) (e : Expr α) :
    (g.attach op e).Grouped := by
  induction g with
  | atom x => simp [attach, Grouped, leftSpine, rightSpine]
  | node l m r _ ih =>
    have hnode := hg
    obtain ⟨hl, hr, hright, hleft⟩ := hg
    unfold attach
    split
    · rename_i hm
      refine ⟨hl, ih hr, ?_, hleft⟩
      intro p hp
      rcases leftSpine_attach hp with rfl | hp
      · exact hm
      · exact hright p hp
    · rename_i hm
      refine ⟨hnode, grouped_atom e, by simp [leftSpine], ?_⟩
      intro p hp
      rcases List.mem_cons.mp hp with rfl | hp
      · exact Bool.not_eq_true _ ▸ hm
      · -- `m` yields to `p`, so it would yield to `op` if `p` did
        obtain ⟨x, hx⟩ := exists_mem_links_of_rightSpine hp
        have hmp : m.yieldsTo p = true := yieldsTo_of_leftSpine hr hright (p, x) hx
        rw [← Bool.not_eq_true]
        intro hpop
        exact hm (Operator.yieldsTo_trans hmp hpop)

theorem grouped_attachAll {g : Grouping α} (hg : g.Grouped)
    (links : List (Operator α × Expr α)) : (g.attachAll links).Grouped := by
  induction links generalizing g with
  | nil => exact hg
  | cons p links ih => exact ih (grouped_attach hg p.1 p.2)

/-! ## A grouped tree is made by attaching -/

theorem attach_of_not_yieldsTo {g : Grouping α} {op : Operator α} (e : Expr α)
    (h : ∀ m ∈ g.rightSpine, m.yieldsTo op = false) : g.attach op e = node g op (atom e) := by
  cases g with
  | atom x => rfl
  | node l m r =>
    have hm : m.yieldsTo op = false := h m (List.mem_cons_self ..)
    rw [attach, hm]
    rfl

theorem attachAll_node {m : Operator α} (l r : Grouping α) {links : List (Operator α × Expr α)}
    (h : ∀ p ∈ links, m.yieldsTo p.1 = true) :
    (node l m r).attachAll links = node l m (r.attachAll links) := by
  induction links generalizing r with
  | nil => rfl
  | cons p links ih =>
    obtain ⟨hp, hlinks⟩ := List.forall_mem_cons.mp h
    have hattach : (node l m r).attach p.1 p.2 = node l m (r.attach p.1 p.2) := by
      rw [attach, if_pos hp]
    calc (node l m r).attachAll (p :: links)
        = ((node l m r).attach p.1 p.2).attachAll links := rfl
      _ = node l m ((r.attach p.1 p.2).attachAll links) := by rw [hattach, ih _ hlinks]

theorem attachAll_append (g : Grouping α) (links links' : List (Operator α × Expr α)) :
    g.attachAll (links ++ links') = (g.attachAll links).attachAll links' :=
  List.foldl_append ..

theorem attachAll_links {g : Grouping α} (hg : g.Grouped) :
    (atom g.first).attachAll g.links = g := by
  induction g with
  | atom e => rfl
  | node l op r ihl ihr =>
    obtain ⟨hl, hr, hright, hleft⟩ := hg
    calc (atom (node l op r).first).attachAll (node l op r).links
        = ((atom l.first).attachAll l.links).attachAll ((op, r.first) :: r.links) :=
          attachAll_append ..
      _ = (l.attach op r.first).attachAll r.links := by rw [ihl hl]; rfl
      _ = node l op ((atom r.first).attachAll r.links) := by
          rw [attach_of_not_yieldsTo r.first hleft,
            attachAll_node l _ (yieldsTo_of_leftSpine hr hright)]
      _ = node l op r := by rw [ihr hr]

/-! ## The order of a chain -/

/-- A chain as operands and operators in turn. -/
def sequence (e : Expr α) (links : List (Operator α × Expr α)) : List (Expr α ⊕ Operator α) :=
  .inl e :: links.flatMap fun p => [.inr p.1, .inl p.2]

theorem inorder_eq_sequence (g : Grouping α) : g.inorder = sequence g.first g.links := by
  induction g with
  | atom e => rfl
  | node l op r ihl ihr => simp [inorder, ihl, ihr, sequence, first, links]

theorem sequence_inj {e e' : Expr α} {links links' : List (Operator α × Expr α)}
    (h : sequence e links = sequence e' links') : e = e' ∧ links = links' := by
  induction links generalizing e e' links' with
  | nil =>
    cases links' with
    | nil => simpa [sequence] using h
    | cons p links' => simp [sequence] at h
  | cons p links ih =>
    cases links' with
    | nil => simp [sequence] at h
    | cons p' links' =>
      simp only [sequence, List.flatMap_cons, List.cons_append, List.nil_append, List.cons.injEq,
        Sum.inl.injEq, Sum.inr.injEq] at h
      obtain ⟨he, hop, hx, hrest⟩ := h
      have hlinks : sequence e links = sequence e links' := by
        rw [sequence, sequence, hrest]
      exact ⟨he, by rw [Prod.ext hop hx, (ih hlinks).2]⟩

theorem inorder_attachAll (g : Grouping α) (links : List (Operator α × Expr α)) :
    (g.attachAll links).inorder =
      g.inorder ++ links.flatMap fun p => [.inr p.1, .inl p.2] := by
  induction links generalizing g with
  | nil => simp [attachAll]
  | cons p links ih =>
    have hcons : g.attachAll (p :: links) = (g.attach p.1 p.2).attachAll links := rfl
    rw [hcons, ih, inorder_attach, List.flatMap_cons, List.append_assoc]

/-- **The grouped tree of a chain** is the one that attaching gives. -/
theorem grouped_iff {g : Grouping α} {e : Expr α} {links : List (Operator α × Expr α)} :
    g.inorder = sequence e links ∧ g.Grouped ↔ g = (atom e).attachAll links := by
  constructor
  · rintro ⟨hseq, hg⟩
    obtain ⟨rfl, rfl⟩ := sequence_inj ((inorder_eq_sequence g).symm.trans hseq)
    exact (attachAll_links hg).symm
  · rintro rfl
    exact ⟨inorder_attachAll (atom e) links, grouped_attachAll (grouped_atom e) links⟩

end InfixCalculator.Grouping
