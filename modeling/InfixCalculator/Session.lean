import InfixCalculator.Number.Binary.Power
import InfixCalculator.Calculator

/-!
# Interactive sessions

A session shows a prompt, reads a line and evaluates it, again and again, until
the input ends or a line is blank.  Values go to the output and errors to the
error output.

* `Session.reply`: what the session does with one line.
* `Session.run`: what a session writes for a whole input.
-/

namespace InfixCalculator

namespace Session

/-- What a session does with a line. -/
inductive Reply
  /-- The line is blank: the session ends. -/
  | stop
  /-- A line of output. -/
  | value (line : String)
  /-- A line of error output. -/
  | failure (line : String)
deriving DecidableEq, Repr

/-- What is shown where a line is expected. -/
def prompt : String := "> "

/-- The exit code of every session. -/
def exitCode : UInt32 := 0

/-- The reply to a line, whose blanks at both ends do not count. -/
def reply (line : List Char) : Reply :=
  let text := trim line
  if text = [] then .stop
  else match evaluate Double text with
    | .ok x => .value (Number.string x ++ "\n")
    | .error e => .failure ("Error " ++ e.text ++ "\n")

/-- What a session writes to its output and its error output. -/
structure Transcript where
  output : String
  errors : String
deriving DecidableEq, Repr

/-- The first line of an input and what comes after it.  A line ends after its line feed. -/
def nextLine : List Char → List Char × List Char
  | [] => ([], [])
  | '\n' :: rest => (['\n'], rest)
  | c :: rest => (c :: (nextLine rest).1, (nextLine rest).2)

theorem length_nextLine_lt (c : Char) (rest : List Char) :
    (nextLine (c :: rest)).2.length < (c :: rest).length := by
  induction rest generalizing c with
  | nil =>
      unfold nextLine
      split <;> simp_all [nextLine]
  | cons d rest ih =>
      unfold nextLine
      split
      · simp_all
      · rename_i heq
        cases heq
        simp
      · rename_i heq
        cases heq
        exact Nat.lt_succ_of_lt (ih d)

/-- What a session writes for an input. -/
def run : List Char → Transcript
  | [] => ⟨prompt, ""⟩
  | c :: rest =>
      match reply (nextLine (c :: rest)).1 with
      | .stop => ⟨prompt, ""⟩
      | .value line =>
          let after := run (nextLine (c :: rest)).2
          ⟨prompt ++ line ++ after.output, after.errors⟩
      | .failure line =>
          let after := run (nextLine (c :: rest)).2
          ⟨prompt ++ after.output, line ++ after.errors⟩
termination_by input => input.length
decreasing_by all_goals exact length_nextLine_lt c rest

end Session

end InfixCalculator
