import InfixCalculator.Expr.Reader

/-!
# Reading by descent

Texts can also be read with one function for each kind of part.  A function takes
its part away from a cursor and calls the functions of the parts inside.  How
deep the calls nest is told by the text alone, so a descent is given a depth, and
has no outcome if its calls would have to nest deeper.

* `Position`: what is left of a text, and what has been met before it.
* `Descent.operand`, `operation`, `chainWhile`, `extendWhile`: the functions.
* `Descent.chain`, `rightOperand`: the two kinds of chains.
* `Descent.whole`: reads a whole text.
* `Ends`: from a position, a part comes to an end and its outcome has a property.
* `Below`, `belowSucc`: with a greater depth an outcome stays what it is.
* `Routine.Gives`: the outcome of a function when its calls may nest as deep as they need.
-/

namespace InfixCalculator

/-- What is left of a text, and the operators met before it, from the left. -/
structure Position (α : Type) where
  cursor : Cursor
  met : List (Operator α)

namespace Position

variable {α : Type}

def rest (p : Position α) : List Char := p.cursor.rest

/-- The start of a text. -/
def start (text : List Char) : Position α := ⟨⟨text⟩, []⟩

def dropBlank (p : Position α) : Position α := { p with cursor := p.cursor.dropBlank }

/-- The position after the first characters. -/
def drop (p : Position α) (count : Nat) : Position α := { p with cursor := ⟨p.rest.drop count⟩ }

def meet (p : Position α) (op : Operator α) : Position α := { p with met := p.met ++ [op] }

@[simp] theorem rest_dropBlank (p : Position α) :
    p.dropBlank.rest = InfixCalculator.dropBlank p.rest := rfl

@[simp] theorem rest_drop (p : Position α) (count : Nat) :
    (p.drop count).rest = p.rest.drop count := rfl

@[simp] theorem rest_meet (p : Position α) (op : Operator α) : (p.meet op).rest = p.rest := rfl

end Position

/-- A part of a descent.  It moves on from a position and has a value or a fault there, or no
outcome at all. -/
abbrev Descent (α β : Type) := ExceptT Fault (StateT (Position α) Option) β

namespace Descent

variable {α β γ : Type}

/-- The outcome from a position, with the position that is reached.  A fault does not take back what
was taken away before it. -/
def run (d : Descent α β) (p : Position α) : Option (Except Fault β × Position α) := ExceptT.run d p

/-! ## Steps -/

def look : Descent α Cursor := do
  let p ← get
  return p.cursor

def dropBlank : Descent α Unit := modify Position.dropBlank

/-- Takes the first characters, if there are that many. -/
def take (count : Nat) : Descent α (List Char) := fun p =>
  match p.cursor.take count with
  | .ok (taken, after) => some (.ok taken, { p with cursor := after })
  | .error fault => some (.error fault, p)

def takeLiteral : Descent α (List Char) := do
  let p ← get
  set { p with cursor := p.cursor.takeLiteral.2 }
  return p.cursor.takeLiteral.1

def meet (op : Operator α) : Descent α Unit := modify fun p => p.meet op

/-- The calls would have to nest deeper. -/
def tooDeep : Descent α β := fun _ => none

/-! ## Functions -/

/-- Neither at the end of the text nor at a `)`. -/
def unfinished (c : Cursor) : Bool := !c.isEmpty && !c.atClosing

/-- Does an operator yield to the one that the cursor is at? -/
def yieldsToNext (t : Table α) (op : Operator α) (c : Cursor) : Bool :=
  unfinished c && (t.get? c.peekOperator).any op.yieldsTo

variable [Number α]

mutual

/-- A literal, a chain in parentheses, or a `-` in front of an operand. -/
def operand (t : Table α) : Nat → Descent α (Expr α)
  | 0 => tooDeep
  | depth + 1 => do
      let c ← look
      match c.first? with
      | none => throw .missingOperand
      | some first =>
          if first = '-' ∧ c.atNegation then
            let _ ← take 1
            let e ← operand t depth
            return .neg e
          else if first = '(' then
            let _ ← take 1
            let e ← chainWhile t unfinished depth
            let after ← look
            if after.atClosing then
              let _ ← take 1
              return e
            else throw .unclosed
          else
            let literal ← takeLiteral
            if literal = [] then throw (.notAnOperand first)
            else match Number.read? literal with
              | none => throw (.notANumber literal)
              | some x => return .num x

/-- An operator and its right operand, after the first operand. -/
def operation (t : Table α) (first : Expr α) : Nat → Descent α (Expr α)
  | 0 => tooDeep
  | depth + 1 => do
      let c ← look
      let symbol := c.peekOperator
      if symbol = [] then throw (.notAnOperation c.rest)
      else
        let _ ← take symbol.length
        match t.get? symbol with
        | none => throw (.unknownOperator symbol)
        | some op =>
            meet op
            let right ← chainWhile t (yieldsToNext t op) depth
            return .bin first op right

/-- An operand with operations after it, as long as the cursor says so, and the blanks around
them. -/
def chainWhile (t : Table α) (goesOn : Cursor → Bool) : Nat → Descent α (Expr α)
  | 0 => tooDeep
  | depth + 1 => do
      dropBlank
      let first ← operand t depth
      dropBlank
      extendWhile t goesOn first depth

/-- Operations after an operand, as long as the cursor says so. -/
def extendWhile (t : Table α) (goesOn : Cursor → Bool) (first : Expr α) :
    Nat → Descent α (Expr α)
  | 0 => tooDeep
  | depth + 1 => do
      let c ← look
      if goesOn c then
        let e ← operation t first depth
        dropBlank
        extendWhile t goesOn e depth
      else return first

end

/-- A chain up to the end of the text or a `)`. -/
def chain (t : Table α) (depth : Nat) : Descent α (Expr α) := chainWhile t unfinished depth

/-- The right operand of an operator: a chain of operations that are applied before it. -/
def rightOperand (t : Table α) (op : Operator α) (depth : Nat) : Descent α (Expr α) :=
  chainWhile t (yieldsToNext t op) depth

/-- A chain that is all of the text. -/
def whole (t : Table α) (depth : Nat) : Descent α (Expr α) := do
  let e ← chain t depth
  let c ← look
  if c.isEmpty then return e else throw (.trailing c.rest)

/-! ## Ends -/

section Ends

omit [Number α]

variable {p : Position α} {Q : Except Fault γ → Position α → Prop}

/-- From a position, the part comes to an end, and its outcome has a property. -/
def Ends (d : Descent α β) (p : Position α) (Q : Except Fault β → Position α → Prop) : Prop :=
  ∃ result q, d.run p = some (result, q) ∧ Q result q

theorem run_bind (d : Descent α β) (f : β → Descent α γ) (p : Position α) :
    (d >>= f).run p = (d.run p).bind fun o =>
      match o with
      | (.ok x, q) => (f x).run q
      | (.error fault, q) => some (.error fault, q) := by
  show Option.bind (d.run p) _ = _
  refine congrArg (Option.bind (d.run p)) (funext ?_)
  rintro ⟨fault | x, q⟩ <;> rfl

theorem ends_pure {x : γ} (h : Q (.ok x) p) : Ends (pure x) p Q := ⟨_, _, rfl, h⟩

theorem ends_throw {fault : Fault} (h : Q (.error fault) p) : Ends (throw fault) p Q :=
  ⟨_, _, rfl, h⟩

/-- One part after another one.  A fault of the first is the fault of both. -/
theorem Ends.bind {d : Descent α β} {f : β → Descent α γ} {R : Except Fault β → Position α → Prop}
    (h : Ends d p R) (hok : ∀ x q, R (.ok x) q → Ends (f x) q Q)
    (herror : ∀ fault q, R (.error fault) q → Q (.error fault) q) : Ends (d >>= f) p Q := by
  obtain ⟨result, q, hrun, hR⟩ := h
  cases result with
  | ok x =>
    obtain ⟨result, q', hrun', hQ⟩ := hok x q hR
    exact ⟨result, q', by rw [run_bind, hrun]; exact hrun', hQ⟩
  | error fault => exact ⟨.error fault, q, by rw [run_bind, hrun]; rfl, herror fault q hR⟩

theorem Ends.mono {d : Descent α γ} {R : Except Fault γ → Position α → Prop} (h : Ends d p R)
    (hQ : ∀ result q, R result q → Q result q) : Ends d p Q := by
  obtain ⟨result, q, hrun, hR⟩ := h
  exact ⟨result, q, hrun, hQ result q hR⟩

theorem Ends.and {d : Descent α γ} {R : Except Fault γ → Position α → Prop} (h : Ends d p Q)
    (h' : Ends d p R) : Ends d p fun result q => Q result q ∧ R result q := by
  obtain ⟨result, q, hrun, hQ⟩ := h
  obtain ⟨result', q', hrun', hR⟩ := h'
  rw [hrun] at hrun'
  cases hrun'
  exact ⟨result, q, hrun, hQ, hR⟩

theorem ends_look {f : Cursor → Descent α γ} :
    Ends (look >>= f) p Q ↔ Ends (f p.cursor) p Q := Iff.rfl

theorem ends_dropBlank {f : Unit → Descent α γ} :
    Ends (dropBlank >>= f) p Q ↔ Ends (f ()) p.dropBlank Q := Iff.rfl

theorem ends_meet {op : Operator α} {f : Unit → Descent α γ} :
    Ends (meet op >>= f) p Q ↔ Ends (f ()) (p.meet op) Q := Iff.rfl

theorem ends_takeLiteral {f : List Char → Descent α γ} :
    Ends (takeLiteral >>= f) p Q ↔
      Ends (f (literalRun p.rest)) (p.drop (literalRun p.rest).length) Q := Iff.rfl

/-- As many characters as there are can be taken. -/
theorem ends_take {count : Nat} {f : List Char → Descent α γ} (h : count ≤ p.rest.length) :
    Ends (take count >>= f) p Q ↔ Ends (f (p.rest.take count)) (p.drop count) Q := by
  have htake : p.cursor.take count = .ok (p.rest.take count, ⟨p.rest.drop count⟩) := if_pos h
  have hstep : (take count).run p = some (.ok (p.rest.take count), p.drop count) := by
    simp only [run, ExceptT.run, take, htake]
    rfl
  have hrun : (take count >>= f).run p = (f (p.rest.take count)).run (p.drop count) := by
    rw [run_bind, hstep]
    rfl
  rw [Ends, Ends, hrun]

end Ends

/-! ## Depth -/

/-- Every outcome of the one part is the outcome of the other one. -/
def Below (d d' : Descent α β) : Prop := ∀ p o, d.run p = some o → d'.run p = some o

omit [Number α] in
theorem below_refl (d : Descent α β) : Below d d := fun _ _ h => h

omit [Number α] in
theorem below_tooDeep (d : Descent α β) : Below tooDeep d := by
  intro p o h
  cases h

omit [Number α] in
theorem Below.bind {d d' : Descent α β} {f f' : β → Descent α γ} (h : Below d d')
    (hf : ∀ x, Below (f x) (f' x)) : Below (d >>= f) (d' >>= f') := by
  intro p o hrun
  rw [run_bind] at hrun ⊢
  obtain ⟨⟨result, q⟩, hd, hrun⟩ := Option.bind_eq_some_iff.mp hrun
  rw [h p _ hd]
  cases result with
  | ok x => exact hf x q o hrun
  | error fault => exact hrun

omit [Number α] in
theorem Below.ite {d d' e e' : Descent α β} (hd : Below d d') (he : Below e e') (c : Prop)
    [Decidable c] : Below (if c then d else e) (if c then d' else e') := by
  split
  · exact hd
  · exact he

/-- The functions at a depth are below those at the next one. -/
structure BelowSucc (t : Table α) (depth : Nat) : Prop where
  operand : Below (operand t depth) (operand t (depth + 1))
  operation : ∀ first, Below (operation t first depth) (operation t first (depth + 1))
  chainWhile : ∀ goesOn, Below (chainWhile t goesOn depth) (chainWhile t goesOn (depth + 1))
  extendWhile : ∀ goesOn first,
    Below (extendWhile t goesOn first depth) (extendWhile t goesOn first (depth + 1))

theorem below_operand {t : Table α} {depth : Nat} (h : BelowSucc t depth) :
    Below (operand t (depth + 1)) (operand t (depth + 1 + 1)) := by
  have hneg : ∀ e : Expr α, Below (pure (.neg e) : Descent α (Expr α)) (pure (.neg e)) :=
    fun e => below_refl _
  rw [operand, operand]
  refine (below_refl look).bind fun c => ?_
  split
  · exact below_refl _
  · refine .ite ((below_refl (take 1)).bind fun _ => h.operand.bind hneg) (.ite ?_ ?_ _) _
    · exact (below_refl (take 1)).bind fun _ => (h.chainWhile unfinished).bind fun e => below_refl _
    · exact below_refl _

theorem below_operation {t : Table α} {depth : Nat} (h : BelowSucc t depth) (first : Expr α) :
    Below (operation t first (depth + 1)) (operation t first (depth + 1 + 1)) := by
  rw [operation, operation]
  refine (below_refl look).bind fun c => .ite (below_refl _) ?_ _
  refine (below_refl (take _)).bind fun _ => ?_
  split
  · exact below_refl _
  · exact (below_refl (meet _)).bind fun _ => (h.chainWhile _).bind fun right => below_refl _

theorem belowSucc (t : Table α) (depth : Nat) : BelowSucc t depth := by
  induction depth with
  | zero =>
    exact ⟨below_tooDeep _, fun _ => below_tooDeep _, fun _ => below_tooDeep _,
      fun _ _ => below_tooDeep _⟩
  | succ depth ih =>
    refine ⟨below_operand ih, below_operation ih, ?_, ?_⟩
    · intro goesOn
      rw [chainWhile, chainWhile]
      refine (below_refl dropBlank).bind fun _ => ih.operand.bind fun first => ?_
      exact (below_refl dropBlank).bind fun _ => ih.extendWhile goesOn first
    · intro goesOn first
      rw [extendWhile, extendWhile]
      refine (below_refl look).bind fun c => .ite ?_ (below_refl _) _
      refine (ih.operation first).bind fun e => ?_
      exact (below_refl dropBlank).bind fun _ => ih.extendWhile goesOn e

/-! ## Outcomes -/

/-- The functions of a descent, with what they are given. -/
inductive Routine (α : Type)
  | operand
  | operation (first : Expr α)
  | chain
  | rightOperand (op : Operator α)

namespace Routine

/-- The function, its calls nested no deeper than a depth. -/
def descent (t : Table α) (depth : Nat) : Routine α → Descent α (Expr α)
  | operand => Descent.operand t depth
  | operation first => Descent.operation t first depth
  | chain => Descent.chain t depth
  | rightOperand op => Descent.rightOperand t op depth

/-- The outcome of the function from a position, for some depth. -/
def Gives (t : Table α) (r : Routine α) (p : Position α) (result : Except Fault (Expr α))
    (q : Position α) : Prop := ∃ depth, (r.descent t depth).run p = some (result, q)

theorem below_descent (t : Table α) (r : Routine α) {depth depth' : Nat} (h : depth ≤ depth') :
    Below (r.descent t depth) (r.descent t depth') := by
  induction h with
  | refl => exact below_refl _
  | @step depth' _ ih =>
    have hsucc := belowSucc t depth'
    have hnext : Below (r.descent t depth') (r.descent t (depth' + 1)) := by
      cases r with
      | operand => exact hsucc.operand
      | operation first => exact hsucc.operation first
      | chain => exact hsucc.chainWhile unfinished
      | rightOperand op => exact hsucc.chainWhile (yieldsToNext t op)
    exact fun p o hrun => hnext p o (ih p o hrun)

/-- **There is no more than one outcome**: with a greater depth it stays what it is. -/
theorem Gives.unique {t : Table α} {r : Routine α} {p q q' : Position α}
    {result result' : Except Fault (Expr α)} (h : r.Gives t p result q)
    (h' : r.Gives t p result' q') : result = result' ∧ q = q' := by
  obtain ⟨depth, hrun⟩ := h
  obtain ⟨depth', hrun'⟩ := h'
  have hmax := below_descent t r (Nat.le_max_left depth depth') p _ hrun
  have hmax' := below_descent t r (Nat.le_max_right depth depth') p _ hrun'
  rw [hmax] at hmax'
  cases hmax'
  exact ⟨rfl, rfl⟩

end Routine

end Descent

end InfixCalculator
