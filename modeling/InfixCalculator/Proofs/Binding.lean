import InfixCalculator.Calculator
import InfixCalculator.Proofs.Lockstep
import Mathlib.Data.Finset.Card

/-!
# What a table binds

A table made from a list of operators keeps for each symbol the last operator that
has it, in the place where the symbol came up first.  The reader looks into a table
for symbols and nothing else, so two lists with the same last operators make
tables with which every text is read and evaluated alike.

* `Table.LastOf`: the last operator with its symbol in a list.
* `symbols_insert`, `symbols_ofList`: each symbol once, in the order of first use.
* `lastOf_concat`, `get?_ofList_iff`: the operator of a symbol is the last one.
* `Reader.read_congr`: tables that bind alike read alike.
* `ofList_keeps_last`: all of this for a table made from a list.
-/

namespace InfixCalculator

variable {α : Type}

namespace Table

/-- The operator is in the list, and no later one has its symbol. -/
def LastOf (ops : List (Operator α)) (op : Operator α) : Prop :=
  ∃ before after, ops = before ++ op :: after ∧ ∀ later ∈ after, later.symbol ≠ op.symbol

/-! ## Symbols -/

theorem symbols_insert (t : Table α) (op : Operator α) :
    (t.insert op).symbols =
      if op.symbol ∈ t.symbols then t.symbols else t.symbols ++ [op.symbol] := by
  unfold insert
  split
  · exact map_symbol_replacing op t.operators
  · exact List.map_append

theorem ofList_concat (ops : List (Operator α)) (op : Operator α) :
    ofList (ops ++ [op]) = (ofList ops).insert op := by
  rw [ofList, List.foldl_append]
  rfl

/-- **Each symbol stands once**, in the order in which the symbols come up first. -/
theorem symbols_ofList (ops : List (Operator α)) :
    (ofList ops).symbols = (ops.map Operator.symbol).eraseDups := by
  induction ops using List.reverseRecOn with
  | nil => rfl
  | append_singleton ops op ih =>
    rw [ofList_concat, symbols_insert, ih, List.map_append, List.eraseDups_append]
    by_cases hmem : op.symbol ∈ ops.map Operator.symbol
    · have hnone : [op.symbol].removeAll (ops.map Operator.symbol) = [] := by
        simpa [List.removeAll] using hmem
      rw [if_pos (List.mem_eraseDups.mpr hmem), List.map_singleton, hnone, List.eraseDups_nil,
        List.append_nil]
    · have hself : [op.symbol].removeAll (ops.map Operator.symbol) = [op.symbol] := by
        simpa [List.removeAll] using hmem
      rw [if_neg (fun h => hmem (List.mem_eraseDups.mp h)), List.map_singleton, hself]
      rfl

/-! ## Operators -/

theorem not_lastOf_nil (op : Operator α) : ¬LastOf [] op := by
  rintro ⟨before, after, h, _⟩
  cases before <;> cases h

theorem lastOf_concat {ops : List (Operator α)} {last op : Operator α} :
    LastOf (ops ++ [last]) op ↔ op = last ∨ op.symbol ≠ last.symbol ∧ LastOf ops op := by
  constructor
  · rintro ⟨before, after, h, hlater⟩
    rcases List.eq_nil_or_concat' after with rfl | ⟨after, later, rfl⟩
    · obtain ⟨_, hlast⟩ := List.append_inj' h rfl
      cases hlast
      exact Or.inl rfl
    · rw [← List.cons_append, ← List.append_assoc] at h
      obtain ⟨hops, hlast⟩ := List.append_inj' h rfl
      cases hlast
      have hne := List.forall_mem_append.mp hlater
      exact Or.inr ⟨(hne.2 last List.mem_cons_self).symm, before, after, hops, hne.1⟩
  · rintro (rfl | ⟨hne, before, after, rfl, hlater⟩)
    · exact ⟨ops, [], rfl, List.forall_mem_nil _⟩
    · refine ⟨before, after ++ [last], by simp, ?_⟩
      exact List.forall_mem_append.mpr ⟨hlater, List.forall_mem_singleton.mpr hne.symm⟩

/-- **The operator of a symbol is the last one that has it.** -/
theorem get?_ofList_iff {ops : List (Operator α)} {symbol : List Char} {op : Operator α} :
    (ofList ops).get? symbol = some op ↔ op.symbol = symbol ∧ LastOf ops op := by
  induction ops using List.reverseRecOn with
  | nil =>
    have hnone : (ofList [] : Table α).get? symbol = none := rfl
    rw [hnone]
    exact iff_of_false (Option.some_ne_none op).symm fun h => not_lastOf_nil op h.2
  | append_singleton ops last ih =>
    rw [ofList_concat, get?_insert, lastOf_concat]
    by_cases hsymbol : last.symbol = symbol
    · rw [if_pos hsymbol]
      constructor
      · rintro ⟨⟩
        exact ⟨hsymbol, Or.inl rfl⟩
      · rintro ⟨hop, rfl | ⟨hne, _⟩⟩
        · rfl
        · exact absurd (hop.trans hsymbol.symm) hne
    · rw [if_neg hsymbol, ih]
      refine and_congr_right ?_
      rintro rfl
      constructor
      · exact fun h => Or.inr ⟨Ne.symm hsymbol, h⟩
      · rintro (rfl | ⟨_, h⟩)
        · exact absurd rfl hsymbol
        · exact h

/-- The operators of a table are those that it finds. -/
theorem mem_operators_iff {t : Table α} {op : Operator α} :
    op ∈ t.operators ↔ t.get? op.symbol = some op := by
  constructor
  · intro hmem
    have hsome : (t.get? op.symbol).isSome = true :=
      get?_isSome_iff.mpr (List.mem_map_of_mem hmem)
    obtain ⟨found, hfound⟩ := Option.isSome_iff_exists.mp hsome
    have heq := List.inj_on_of_nodup_map t.nodup (mem_of_get? hfound) hmem (symbol_of_get? hfound)
    rw [hfound, heq]
  · exact mem_of_get?

end Table

/-! ## Readers -/

theorem Reading.Rel.eq {r r' : Reading α} (h : r.Rel (· = ·) (· = ·) r') : r = r' := by
  cases h with
  | fail fault hops =>
    rw [List.forall₂_eq_eq_eq] at hops
    rw [hops]
  | done hops he =>
    rw [List.forall₂_eq_eq_eq] at hops
    rw [hops, he]

/-- **Tables that bind alike read alike**, whatever the order of their operators. -/
theorem Reader.read_congr [Number α] {t t' : Table α}
    (h : ∀ symbol, Usable symbol → t.get? symbol = t'.get? symbol) (text : List Char) :
    Reader.read t text = Reader.read t' text := by
  have hlock : Lockstep t t' (· = ·) (· = ·) (· = ·) := {
    get? := by
      intro symbol hsymbol
      rw [h symbol hsymbol]
      cases t'.get? symbol with
      | none => exact .none
      | some op => exact .some rfl
    num := fun _ => rfl
    neg := congrArg Expr.neg
    atom := congrArg Grouping.atom
    attach := by
      rintro g _ op _ e _ rfl rfl rfl
      rfl
    toExpr := congrArg Grouping.toExpr }
  exact (hlock.read text).eq

/-! ## Tables made from lists -/

namespace Table

theorem lastOf_iff {ops : List (Operator α)} {op : Operator α} :
    LastOf ops op ↔ (ofList ops).get? op.symbol = some op := by
  rw [get?_ofList_iff, and_iff_right rfl]

theorem get?_ofList_eq_none_iff {ops : List (Operator α)} {symbol : List Char} :
    (ofList ops).get? symbol = none ↔ ∀ op ∈ ops, op.symbol ≠ symbol := by
  rw [← Option.not_isSome_iff_eq_none, get?_isSome_iff, symbols_ofList, List.mem_eraseDups,
    List.mem_map]
  exact ⟨fun h op hop hsymbol => h ⟨op, hop, hsymbol⟩, fun h ⟨op, hop, hsymbol⟩ => h op hop hsymbol⟩

theorem size_ofList (ops : List (Operator α)) :
    (ofList ops).size = (ops.map Operator.symbol).toFinset.card := by
  have hset : (ops.map Operator.symbol).toFinset = (ofList ops).symbols.toFinset := by
    ext symbol
    rw [List.mem_toFinset, List.mem_toFinset, symbols_ofList, List.mem_eraseDups]
  have hnodup : (ofList ops).symbols.Nodup := (ofList ops).nodup
  rw [hset, List.toFinset_card_of_nodup hnodup, symbols, List.length_map]
  rfl

theorem isEmpty_ofList_iff {ops : List (Operator α)} :
    (ofList ops).isEmpty = true ↔ ops = [] := by
  have hsymbols := symbols_ofList ops
  cases ops with
  | nil => exact iff_of_true rfl rfl
  | cons op ops =>
    rw [List.map_cons, List.eraseDups_cons, symbols, List.map_eq_cons_iff] at hsymbols
    obtain ⟨first, rest, hops, _, _⟩ := hsymbols
    rw [isEmpty, hops]
    exact iff_of_false Bool.false_ne_true (List.cons_ne_nil op ops)

theorem get?_congr {ops ops' : List (Operator α)} (h : ∀ op, LastOf ops op ↔ LastOf ops' op)
    (symbol : List Char) : (ofList ops).get? symbol = (ofList ops').get? symbol := by
  ext op
  rw [get?_ofList_iff, get?_ofList_iff, h]

/-- **A table keeps the last operator of each symbol**, in the order in which the symbols came up
first, and this is all that matters of the list it was made from: with the same last operators a
text is read and evaluated alike. -/
theorem ofList_keeps_last [Number α] (ops : List (Operator α)) :
    ofList ops = ops.foldl insert empty ∧
      (ofList ops).symbols = (ops.map Operator.symbol).eraseDups ∧ (ofList ops).symbols.Nodup ∧
      (∀ op, op ∈ (ofList ops).operators ↔ LastOf ops op) ∧
      (∀ symbol op, (ofList ops).get? symbol = some op ↔ op.symbol = symbol ∧ LastOf ops op) ∧
      (∀ symbol, (ofList ops).get? symbol = none ↔ ∀ op ∈ ops, op.symbol ≠ symbol) ∧
      (ofList ops).size = (ops.map Operator.symbol).toFinset.card ∧
      ((ofList ops).isEmpty = true ↔ ops = []) ∧
      ∀ ops' : List (Operator α), (∀ op, LastOf ops op ↔ LastOf ops' op) → ∀ text,
        (Calculator.mk (ofList ops)).parse text = (Calculator.mk (ofList ops')).parse text ∧
          (Calculator.mk (ofList ops)).evaluate text =
            (Calculator.mk (ofList ops')).evaluate text := by
  refine ⟨rfl, symbols_ofList ops, (ofList ops).nodup, ?_, fun _ _ => get?_ofList_iff,
    fun _ => get?_ofList_eq_none_iff, size_ofList ops, isEmpty_ofList_iff, ?_⟩
  · intro op
    rw [mem_operators_iff, lastOf_iff]
  · intro ops' h text
    have hread := Reader.read_congr (fun symbol _ => get?_congr h symbol) text
    rw [Calculator.parse, Calculator.parse, Expr.read, Expr.read, Calculator.evaluate,
      Calculator.evaluate, hread]
    exact ⟨rfl, rfl⟩

/-- A sum that becomes a difference later on, and a symbol that no text can have. -/
def rebound : List (Operator (Signed 8)) :=
  [⟨['+'], Number.add, 0, .left⟩, ⟨[], Number.rem, 9, .right⟩, ⟨['*'], Number.mul, 1, .left⟩,
    ⟨['+'], Number.sub, 5, .right⟩]

/-- The operators that are left of those. -/
def remaining : List (Operator (Signed 8)) :=
  [⟨['*'], Number.mul, 1, .left⟩, ⟨['+'], Number.sub, 5, .right⟩, ⟨[], Number.rem, 9, .right⟩]

theorem ofList_keeps_last_rebound :
    (∀ op, LastOf rebound op ↔ LastOf remaining op) ∧
      (ofList rebound).symbols = [['+'], [], ['*']] ∧ (ofList rebound).size = 3 ∧
      (Calculator.mk (ofList rebound)).parse "2 * 3 + 1".toList =
        .ok (.bin (.num (.wrap 2)) ⟨['*'], Number.mul, 1, .left⟩
          (.bin (.num (.wrap 3)) ⟨['+'], Number.sub, 5, .right⟩ (.num (.wrap 1)))) := by
  have hget : ∀ symbol, (ofList rebound).get? symbol = (ofList remaining).get? symbol := by
    intro symbol
    have hrebound : ofList rebound = (((empty.insert ⟨['+'], Number.add, 0, .left⟩).insert
        ⟨[], Number.rem, 9, .right⟩).insert ⟨['*'], Number.mul, 1, .left⟩).insert
        ⟨['+'], Number.sub, 5, .right⟩ := rfl
    have hremaining : ofList remaining = ((empty.insert ⟨['*'], Number.mul, 1, .left⟩).insert
        ⟨['+'], Number.sub, 5, .right⟩).insert ⟨[], Number.rem, 9, .right⟩ := rfl
    simp only [hrebound, hremaining, get?_insert]
    by_cases hplus : ['+'] = symbol
    · subst hplus
      rfl
    · by_cases htimes : ['*'] = symbol
      · subst htimes
        rfl
      · simp only [if_neg hplus, if_neg htimes]
  have hlast : ∀ op, LastOf rebound op ↔ LastOf remaining op := by
    intro op
    rw [lastOf_iff, lastOf_iff, hget]
  obtain ⟨_, hsymbols, _, _, _, _, hsize, _, hcongr⟩ := ofList_keeps_last rebound
  refine ⟨hlast, hsymbols.trans rfl, hsize.trans rfl, ?_⟩
  rw [(hcongr remaining hlast _).1]
  with_unfolding_all rfl

end Table

end InfixCalculator
