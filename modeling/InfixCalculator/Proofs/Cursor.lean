import InfixCalculator.Proofs.Text.Bytes
import InfixCalculator.Proofs.Text.Run

/-!
# A cursor keeps its text

A cursor over UTF-8 counts the characters that it takes, but it cuts at bytes, and
the ends of runs are bytes, too.  A text cannot be cut inside a character.  This is
never tried: every position that a step computes is the end of a character, so the
steps that cut at bytes are the steps on characters.

What a step takes away stands before what it leaves.  A list of steps thus takes
away a beginning of the text and leaves the rest of it.

* `takeEnd`, `cut`: the byte where the first characters end, and a cut there.
* `applyAt`, `runAt`: the steps with cuts at bytes; `applyAt_eq`, `runAt_eq`.
* `removed`: what a step takes away; `removed_append_rest`, `removedBy_append_rest`.
* `run_keeps_text`: nothing of a text is lost, repeated or given back.
-/

namespace InfixCalculator

namespace Cursor

/-! ## Cuts at bytes -/

/-- Cuts the text after a number of bytes.  The cursor goes on behind the cut. -/
def cut (c : Cursor) (stop : Nat) : Option (List Char × Cursor) :=
  (cutAt c.rest stop).map fun parts => (parts.1, ⟨parts.2⟩)

/-- The byte where the first characters end.  It is where the next character begins, or the end of
a text that has just as many. -/
def takeEnd (c : Cursor) (count : Nat) : Except Fault Nat :=
  match (charIndices 0 c.rest)[count]? with
  | some (index, _) => .ok index
  | none =>
      if c.rest.length = count then .ok (bytes c.rest).length
      else .error (.shortRest count c.rest)

/-- Takes the first characters, with a cut where they end. -/
def takeAt (c : Cursor) (count : Nat) : Option (Except Fault (List Char) × Cursor) :=
  match c.takeEnd count with
  | .ok stop => (c.cut stop).map fun parts => (.ok parts.1, parts.2)
  | .error fault => some (.error fault, c)

/-- The operator symbol at the start, up to the byte where its run ends. -/
def peekOperatorAt (c : Cursor) : Option (List Char) :=
  (c.cut (runEnd isOperatorChar c.rest)).map (·.1)

/-- Takes the literal at the start.  Its run is cut out first, and then as many bytes as it has are
taken away. -/
def takeLiteralAt (c : Cursor) : Option (List Char × Cursor) := do
  let (literal, _) ← c.cut (runEnd isLiteralChar c.rest)
  let (_, after) ← c.cut (bytes literal).length
  return (literal, after)

/-- The cursor behind the blanks at the start. -/
def dropBlankAt (c : Cursor) : Option Cursor := (c.cut (runEnd isBlank c.rest)).map (·.2)

/-- A step with cuts at bytes.  There is no answer if one falls inside a character. -/
def applyAt (c : Cursor) : Step → Option (Answer × Cursor)
  | .take count => (c.takeAt count).map fun r => (.taken r.1, r.2)
  | .takeLiteral => c.takeLiteralAt.map fun r => (.text r.1, r.2)
  | .dropBlank => c.dropBlankAt.map fun after => (.nothing, after)
  | .first => some (.char c.first?, c)
  | .isEmpty => some (.truth c.isEmpty, c)
  | .atClosing => some (.truth c.atClosing, c)
  | .atNegation => some (.truth c.atNegation, c)
  | .peekOperator => c.peekOperatorAt.map fun symbol => (.text symbol, c)

/-- A list of steps with cuts at bytes.  All have an answer, or there is none. -/
def runAt (c : Cursor) : List Step → Option (List (Answer × Cursor))
  | [] => some []
  | s :: steps => do
      let r ← c.applyAt s
      let more ← r.2.runAt steps
      return r :: more

/-! ## Cuts are ends of characters -/

theorem cut_of_append {c : Cursor} {taken rest : List Char} (h : taken ++ rest = c.rest) :
    c.cut (bytes taken).length = some (taken, ⟨rest⟩) := by
  rw [cut, ← h, cutAt_append]
  rfl

theorem cut_take (c : Cursor) (count : Nat) :
    c.cut (bytes (c.rest.take count)).length = some (c.rest.take count, ⟨c.rest.drop count⟩) :=
  cut_of_append (List.take_append_drop count c.rest)

theorem cut_run (c : Cursor) (p : Char → Bool) :
    c.cut (bytes (c.rest.takeWhile p)).length =
      some (c.rest.takeWhile p, ⟨c.rest.drop (c.rest.takeWhile p).length⟩) :=
  cut_of_append (takeWhile_append_drop p c.rest)

theorem cut_runEnd (c : Cursor) (p : Char → Bool) :
    c.cut (runEnd p c.rest) =
      some (c.rest.takeWhile p, ⟨c.rest.drop (c.rest.takeWhile p).length⟩) := by
  rw [runEnd_eq, cut_run]

/-- As many characters as are left end where the text ends, which is not where one begins. -/
theorem takeEnd_of_le {c : Cursor} {count : Nat} (h : count ≤ c.rest.length) :
    c.takeEnd count = .ok (bytes (c.rest.take count)).length := by
  rw [takeEnd, charIndices_getElem?]
  rcases Nat.lt_or_eq_of_le h with hlt | heq
  · rw [List.getElem?_eq_getElem hlt]
    simp
  · rw [heq, List.getElem?_eq_none (Nat.le_refl _), List.take_length]
    simp

theorem takeEnd_of_lt {c : Cursor} {count : Nat} (h : c.rest.length < count) :
    c.takeEnd count = .error (.shortRest count c.rest) := by
  have hne : ¬c.rest.length = count := by omega
  rw [takeEnd, charIndices_getElem?, List.getElem?_eq_none (by omega)]
  simp [hne]

theorem takeAt_of_le {c : Cursor} {count : Nat} (h : count ≤ c.rest.length) :
    c.takeAt count = some (.ok (c.rest.take count), ⟨c.rest.drop count⟩) := by
  rw [takeAt, takeEnd_of_le h]
  simp only [cut_take, Option.map_some]

theorem takeAt_of_lt {c : Cursor} {count : Nat} (h : c.rest.length < count) :
    c.takeAt count = some (.error (.shortRest count c.rest), c) := by
  rw [takeAt, takeEnd_of_lt h]

theorem peekOperatorAt_eq (c : Cursor) : c.peekOperatorAt = some c.peekOperator := by
  rw [peekOperatorAt, cut_runEnd]
  rfl

theorem takeLiteralAt_eq (c : Cursor) : c.takeLiteralAt = some c.takeLiteral := by
  simp only [takeLiteralAt, cut_runEnd, cut_run, Option.bind_eq_bind, Option.bind_some,
    Option.pure_def]
  rfl

theorem dropBlankAt_eq (c : Cursor) : c.dropBlankAt = some c.dropBlank := by
  rw [dropBlankAt, cut_runEnd, drop_length_takeWhile]
  rfl

/-- No step cuts a character. -/
theorem applyAt_eq (c : Cursor) (s : Step) : c.applyAt s = some (c.apply s) := by
  cases s with
  | take count =>
    rcases Nat.lt_or_ge c.rest.length count with h | h
    · simp [applyAt, takeAt_of_lt h, apply, take, Nat.not_le.mpr h]
    · simp [applyAt, takeAt_of_le h, apply, take, h]
  | takeLiteral => rw [applyAt, takeLiteralAt_eq]; rfl
  | dropBlank => rw [applyAt, dropBlankAt_eq]; rfl
  | peekOperator => rw [applyAt, peekOperatorAt_eq]; rfl
  | first => rfl
  | isEmpty => rfl
  | atClosing => rfl
  | atNegation => rfl

theorem runAt_eq (c : Cursor) (steps : List Step) : c.runAt steps = some (c.run steps) := by
  induction steps generalizing c with
  | nil => rfl
  | cons s steps ih =>
    simp only [runAt, applyAt_eq, ih, Option.bind_eq_bind, Option.bind_some, Option.pure_def]
    rfl

/-! ## Nothing is lost -/

/-- What a step takes away: the text that it answers, or the blanks that it skips. -/
def removed (c : Cursor) (s : Step) : List Char :=
  match s, (c.apply s).1 with
  | .take _, .taken (.ok taken) => taken
  | .takeLiteral, .text literal => literal
  | .dropBlank, _ => c.rest.takeWhile isBlank
  | _, _ => []

/-- What a list of steps takes away, in order. -/
def removedBy (c : Cursor) : List Step → List Char
  | [] => []
  | s :: steps => c.removed s ++ (c.apply s).2.removedBy steps

/-- What a step takes away stands before what it leaves. -/
theorem removed_append_rest (c : Cursor) (s : Step) :
    c.removed s ++ (c.apply s).2.rest = c.rest := by
  cases s with
  | take count =>
    by_cases h : count ≤ c.rest.length
    · simp [removed, apply, take, h]
    · simp [removed, apply, take, h]
  | takeLiteral => exact takeWhile_append_drop isLiteralChar c.rest
  | dropBlank => exact List.takeWhile_append_dropWhile
  | first => rfl
  | isEmpty => rfl
  | atClosing => rfl
  | atNegation => rfl
  | peekOperator => rfl

/-- After each of its steps, a run has taken a beginning of the text away and left the rest. -/
theorem removedBy_append_rest (c : Cursor) {steps : List Step} {i : Nat} (h : i < steps.length) :
    ∃ answer after, (c.run steps)[i]? = some (answer, after) ∧
      c.removedBy (steps.take (i + 1)) ++ after.rest = c.rest := by
  induction steps generalizing c i with
  | nil => cases h
  | cons s steps ih =>
    cases i with
    | zero =>
      refine ⟨_, _, rfl, ?_⟩
      rw [List.take_succ_cons, List.take_zero, removedBy, removedBy, List.append_nil]
      exact c.removed_append_rest s
    | succ i =>
      obtain ⟨answer, after, hrun, hrest⟩ := ih (c.apply s).2 (Nat.lt_of_succ_lt_succ h)
      refine ⟨answer, after, hrun, ?_⟩
      rw [List.take_succ_cons, removedBy, List.append_assoc, hrest]
      exact c.removed_append_rest s

/-! ## Runs -/

theorem longestRun_peekOperator (c : Cursor) :
    LongestRun (fun d => d.isDigit = false ∧ isBlank d = false ∧ d ≠ ')')
      c.peekOperator c.rest := by
  have h := longestRun_takeWhile isOperatorChar c.rest
  simpa [isOperatorChar, and_assoc, peekOperator, operatorRun] using h

theorem longestRun_takeLiteral (c : Cursor) :
    LongestRun (fun d => isBlank d = false ∧ d ≠ ')') c.takeLiteral.1 c.rest := by
  have h := longestRun_takeWhile isLiteralChar c.rest
  simpa [isLiteralChar, takeLiteral, literalRun] using h

/-! ## Every cursor -/

/-- **A cursor keeps its text.**  A list of steps has an answer to each, and cuts at bytes change
none.  After each step, all that was taken away stands before what is left.  Characters can be taken
if and only if there are that many; these are taken, and otherwise the cursor stays.  An operator
symbol and a literal are the longest runs of their classes, and a symbol that was seen can be taken.
Behind the blanks there is none. -/
theorem run_keeps_text (c : Cursor) :
    (∀ steps, c.runAt steps = some (c.run steps) ∧
      ∀ i < steps.length, ∃ answer after, (c.run steps)[i]? = some (answer, after) ∧
        c.removedBy (steps.take (i + 1)) ++ after.rest = c.rest) ∧
    (∀ count,
      ((∃ taken after, c.takeAt count = some (.ok taken, after)) ↔ count ≤ c.rest.length) ∧
      (∀ taken after, c.takeAt count = some (.ok taken, after) →
        taken = c.rest.take count ∧ after.rest = c.rest.drop count) ∧
      (c.rest.length < count → ∃ fault, c.takeAt count = some (.error fault, c))) ∧
    (c.peekOperatorAt = some c.peekOperator ∧
      LongestRun (fun d => d.isDigit = false ∧ isBlank d = false ∧ d ≠ ')') c.peekOperator c.rest ∧
      ∃ after, c.takeAt c.peekOperator.length = some (.ok c.peekOperator, after)) ∧
    (∃ literal after, c.takeLiteralAt = some (literal, after) ∧
      LongestRun (fun d => isBlank d = false ∧ d ≠ ')') literal c.rest ∧
      literal ++ after.rest = c.rest) ∧
    ∃ after, c.dropBlankAt = some after ∧ ∀ d ∈ after.rest.head?, isBlank d = false := by
  refine ⟨?_, ?_, ?_, ?_, ?_⟩
  · intro steps
    exact ⟨c.runAt_eq steps, fun i hi => c.removedBy_append_rest hi⟩
  · intro count
    rcases Nat.lt_or_ge c.rest.length count with h | h
    · rw [takeAt_of_lt h]
      refine ⟨⟨?_, fun hle => absurd hle (Nat.not_le.mpr h)⟩, ?_, fun _ => ⟨_, rfl⟩⟩
      · rintro ⟨taken, after, heq⟩
        cases heq
      · intro taken after heq
        cases heq
    · rw [takeAt_of_le h]
      refine ⟨⟨fun _ => h, fun _ => ⟨_, _, rfl⟩⟩, ?_, fun hlt => absurd hlt (Nat.not_lt.mpr h)⟩
      intro taken after heq
      cases heq
      exact ⟨rfl, rfl⟩
  · have hlongest := c.longestRun_peekOperator
    have htake : c.peekOperator = c.rest.take c.peekOperator.length :=
      List.prefix_iff_eq_take.mp hlongest.begins
    refine ⟨c.peekOperatorAt_eq, hlongest, ⟨c.rest.drop c.peekOperator.length⟩, ?_⟩
    rw [takeAt_of_le hlongest.begins.length_le, ← htake]
  · exact ⟨_, _, c.takeLiteralAt_eq, c.longestRun_takeLiteral,
      takeWhile_append_drop isLiteralChar c.rest⟩
  · exact ⟨_, c.dropBlankAt_eq, eq_false_of_mem_head?_dropWhile isBlank c.rest⟩

/-- A text of four characters and six bytes.  Its first two characters are taken whole, and six are
not there. -/
theorem run_keeps_text_wide :
    (∃ taken after, (Cursor.mk "÷÷ 4".toList).takeAt 2 = some (.ok taken, after) ∧
      taken = "÷÷".toList ∧ after.rest = " 4".toList) ∧
    ∃ fault, (Cursor.mk "÷÷ 4".toList).takeAt 6 = some (.error fault, ⟨"÷÷ 4".toList⟩) := by
  obtain ⟨_, htake, _⟩ := run_keeps_text ⟨"÷÷ 4".toList⟩
  obtain ⟨taken, after, hok⟩ := (htake 2).1.mpr (by decide)
  obtain ⟨htaken, hafter⟩ := (htake 2).2.1 taken after hok
  exact ⟨⟨taken, after, hok, htaken, hafter⟩, (htake 6).2.2 (by decide)⟩

end Cursor

end InfixCalculator
