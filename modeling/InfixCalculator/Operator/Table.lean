import InfixCalculator.Operator

/-!
# Operator tables

A table binds symbols to operators.  Its operators stand in the order in which
their symbols were first bound; binding a symbol again replaces its operator in
place.

* `Table.insert`, `Table.ofList`: binding one operator, or several in turn.
* `Table.get?`: the operator of a symbol.
* `operators_ofList`: operators with different symbols stay in their order.
* `get?_insert`: a symbol has the operator that was bound last.
-/

namespace InfixCalculator

/-- Operators, each with a symbol of its own. -/
structure Table (α : Type) where
  operators : List (Operator α)
  nodup : (operators.map Operator.symbol).Nodup

namespace Table

variable {α : Type}

/-- A table of up to this many operators is small. -/
def smallSize : Nat := 16

def empty : Table α := ⟨[], .nil⟩

def size (t : Table α) : Nat := t.operators.length

def isEmpty (t : Table α) : Bool := t.operators.isEmpty

/-- The operator that a symbol is bound to. -/
def get? (t : Table α) (symbol : List Char) : Option (Operator α) :=
  t.operators.find? fun op => op.symbol == symbol

def symbols (t : Table α) : List (List Char) := t.operators.map Operator.symbol

/-- `op` in place of an operator with its symbol; another operator stays. -/
def replacing (op old : Operator α) : Operator α := if old.symbol = op.symbol then op else old

@[simp] theorem symbol_replacing (op old : Operator α) :
    (replacing op old).symbol = old.symbol := by
  unfold replacing
  split
  · rename_i h
    exact h.symm
  · rfl

theorem map_symbol_replacing (op : Operator α) (ops : List (Operator α)) :
    (ops.map (replacing op)).map Operator.symbol = ops.map Operator.symbol := by
  rw [List.map_map]
  exact List.map_congr_left fun old _ => symbol_replacing op old

/-- Binds the symbol of an operator to it. -/
def insert (t : Table α) (op : Operator α) : Table α :=
  if h : op.symbol ∈ t.symbols then
    ⟨t.operators.map (replacing op), by rw [map_symbol_replacing]; exact t.nodup⟩
  else
    ⟨t.operators ++ [op], by
      rw [List.map_append, List.nodup_append]
      refine ⟨t.nodup, by simp, ?_⟩
      intro s hs s' hs'
      simp only [List.map_cons, List.map_nil, List.mem_singleton] at hs'
      rintro rfl
      exact h (hs' ▸ hs)⟩

/-- Binds a list of operators in turn. -/
def ofList (ops : List (Operator α)) : Table α := ops.foldl insert empty

/-! ## Operators with symbols of their own -/

theorem operators_insert {t : Table α} {op : Operator α} (h : op.symbol ∉ t.symbols) :
    (t.insert op).operators = t.operators ++ [op] := by
  rw [insert, dif_neg h]

theorem operators_foldl_insert {t : Table α} {ops : List (Operator α)}
    (h : ((t.operators ++ ops).map Operator.symbol).Nodup) :
    (ops.foldl insert t).operators = t.operators ++ ops := by
  induction ops generalizing t with
  | nil => simp
  | cons op ops ih =>
    have hop : op.symbol ∉ t.symbols := by
      intro hmem
      rw [List.map_append, List.nodup_append] at h
      exact h.2.2 _ hmem _ List.mem_cons_self rfl
    have hassoc : (t.insert op).operators ++ ops = t.operators ++ op :: ops := by
      rw [operators_insert hop, List.append_assoc]
      rfl
    rw [List.foldl_cons, ih (hassoc ▸ h), hassoc]

/-- Operators with different symbols stay in their order. -/
theorem operators_ofList {ops : List (Operator α)} (h : (ops.map Operator.symbol).Nodup) :
    (ofList ops).operators = ops := operators_foldl_insert h

/-! ## Looking up -/

theorem symbol_of_get? {t : Table α} {symbol : List Char} {op : Operator α}
    (h : t.get? symbol = some op) : op.symbol = symbol := by
  have := List.find?_some h
  simpa using this

theorem mem_of_get? {t : Table α} {symbol : List Char} {op : Operator α}
    (h : t.get? symbol = some op) : op ∈ t.operators := List.mem_of_find?_eq_some h

theorem find?_map_replacing (op : Operator α) (symbol : List Char) (ops : List (Operator α)) :
    ((ops.map (replacing op)).find? fun o => o.symbol == symbol) =
      if op.symbol = symbol then (if op.symbol ∈ ops.map Operator.symbol then some op else none)
      else ops.find? fun o => o.symbol == symbol := by
  induction ops with
  | nil => simp
  | cons old ops ih =>
      rw [List.map_cons, List.find?_cons, symbol_replacing, ih, List.find?_cons]
      by_cases hold : old.symbol = symbol
      · by_cases hop : op.symbol = symbol
        · simp [replacing, hold, hop]
        · simp [replacing, hold, hop, Ne.symm hop]
      · have hbeq : (old.symbol == symbol) = false := by simpa using hold
        rw [hbeq]
        by_cases hop : op.symbol = symbol
        · simp [hop, Ne.symm hold]
        · simp [hop]

/-- A symbol has the operator that was bound last. -/
theorem get?_insert (t : Table α) (op : Operator α) (symbol : List Char) :
    (t.insert op).get? symbol = if op.symbol = symbol then some op else t.get? symbol := by
  unfold insert get?
  split
  · rename_i h
    rw [find?_map_replacing]
    simp only [symbols] at h
    rw [if_pos h]
  · rename_i h
    rw [List.find?_append]
    by_cases hop : op.symbol = symbol
    · have hnone : (t.operators.find? fun o => o.symbol == symbol) = none := by
        rw [List.find?_eq_none]
        intro o ho heq
        exact h (List.mem_map.mpr ⟨o, ho, by rw [hop]; simpa using heq⟩)
      simp [hnone, hop]
    · simp [hop]

theorem get?_isSome_iff {t : Table α} {symbol : List Char} :
    (t.get? symbol).isSome = true ↔ symbol ∈ t.symbols := by
  simp [get?, symbols, List.find?_isSome]

end Table

end InfixCalculator
