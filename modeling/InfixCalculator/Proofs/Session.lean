import InfixCalculator.Session
import InfixCalculator.Proofs.Text.Run
import Mathlib.Data.List.Basic

/-!
# A session is the sequence of its lines

A session answers one line after the other until the input ends or a line is
blank, and keeps nothing from one line to the next.  What it writes is therefore
told by its lines alone: a prompt and an answer for each of them up to the first
blank one, and a last prompt.

* `Session.lines`, `Session.active`: the lines of an input, and those before the first blank one.
* `Session.answer`, `Session.transcript`: what is written for one line, and for several.
* `run_ended`, `run_unended`: one step of a session.
* `lines_append`: complete lines come before the lines of what follows.
* `run_eq`: a session writes what is written for its active lines.
* `run_lines`: all that a session writes, and what that says of the parts of an input.
-/

namespace InfixCalculator

namespace Session

/-- The lines of an input: what stands before each line feed, and what stands after the last one
unless that is nothing. -/
def lines (input : List Char) : List (List Char) :=
  if (input.splitOn '\n').getLast? = some [] then (input.splitOn '\n').dropLast
  else input.splitOn '\n'

/-- The lines before the first blank one. -/
def active (lines : List (List Char)) : List (List Char) :=
  lines.takeWhile fun line => trim line ≠ []

/-- What goes to the output for a line. -/
def shown (line : List Char) : String :=
  match evaluate Double (trim line) with
  | .ok x => Number.string x ++ "\n"
  | .error _ => ""

/-- What goes to the error output for a line. -/
def complaint (line : List Char) : String :=
  match evaluate Double (trim line) with
  | .ok _ => ""
  | .error e => "Error " ++ e.text ++ "\n"

/-- What is written for a line and for what comes after it.  After a blank line nothing counts. -/
def answer (line : List Char) (after : Transcript) : Transcript :=
  if trim line = [] then ⟨prompt, ""⟩
  else ⟨prompt ++ shown line ++ after.output, complaint line ++ after.errors⟩

/-- What is written for a sequence of lines of which none is blank. -/
def transcript (lines : List (List Char)) : Transcript :=
  ⟨String.join (lines.map fun line => prompt ++ shown line) ++ prompt,
    String.join (lines.map complaint)⟩

theorem output_transcript_append (before after : List (List Char)) :
    (transcript (before ++ after)).output =
      String.join (before.map fun line => prompt ++ shown line) ++ (transcript after).output := by
  rw [transcript, transcript, List.map_append, String.join_append, String.append_assoc]

theorem errors_transcript_append (before after : List (List Char)) :
    (transcript (before ++ after)).errors =
      (transcript before).errors ++ (transcript after).errors := by
  simp only [transcript, List.map_append, String.join_append]

/-! ## One line -/

theorem run_of_ne_nil {input : List Char} (hne : input ≠ []) :
    run input = answer (nextLine input).1 (run (nextLine input).2) := by
  obtain ⟨c, rest, rfl⟩ := List.exists_cons_of_ne_nil hne
  rw [run, reply, answer, shown, complaint]
  by_cases hblank : trim (nextLine (c :: rest)).1 = []
  · simp only [if_pos hblank]
  · simp only [if_neg hblank]
    cases evaluate Double (trim (nextLine (c :: rest)).1) with
    | ok x => simp only [String.empty_append]
    | error e => simp only [String.append_empty]

theorem nextLine_cons {c : Char} (hc : c ≠ '\n') (rest : List Char) :
    nextLine (c :: rest) = (c :: (nextLine rest).1, (nextLine rest).2) := by
  rw [nextLine]
  exact hc

theorem nextLine_ended {line : List Char} (h : '\n' ∉ line) (rest : List Char) :
    nextLine (line ++ '\n' :: rest) = (line ++ ['\n'], rest) := by
  induction line with
  | nil => rfl
  | cons c line ih =>
    rw [List.mem_cons, not_or] at h
    obtain ⟨hc, hline⟩ := h
    rw [List.cons_append, nextLine_cons (Ne.symm hc), ih hline]
    rfl

theorem nextLine_unended {line : List Char} (h : '\n' ∉ line) : nextLine line = (line, []) := by
  induction line with
  | nil => rfl
  | cons c line ih =>
    rw [List.mem_cons, not_or] at h
    obtain ⟨hc, hline⟩ := h
    rw [nextLine_cons (Ne.symm hc), ih hline]

/-- The line feed at the end of a line does not count. -/
theorem answer_append_newline (line : List Char) (after : Transcript) :
    answer (line ++ ['\n']) after = answer line after := by
  have hnewline : Blank ['\n'] := by decide
  rw [answer, shown, complaint, trim_append_blank line hnewline]
  rfl

theorem run_ended {line : List Char} (h : '\n' ∉ line) (rest : List Char) :
    run (line ++ '\n' :: rest) = answer line (run rest) := by
  have hne : line ++ '\n' :: rest ≠ [] := by simp
  rw [run_of_ne_nil hne, nextLine_ended h, answer_append_newline]

theorem run_unended {line : List Char} (h : '\n' ∉ line) (hne : line ≠ []) :
    run line = answer line (run []) := by
  rw [run_of_ne_nil hne, nextLine_unended h]

/-! ## Lines -/

theorem lines_append_newline (text rest : List Char) :
    lines (text ++ '\n' :: rest) = text.splitOn '\n' ++ lines rest := by
  have hne := List.splitOn_ne_nil '\n' rest
  unfold lines
  rw [List.splitOn_append_cons_self, List.getLast?_append_of_ne_nil _ hne,
    List.dropLast_append_of_ne_nil hne]
  split
  · rfl
  · rfl

theorem lines_ended {line : List Char} (h : '\n' ∉ line) (rest : List Char) :
    lines (line ++ '\n' :: rest) = line :: lines rest := by
  rw [lines_append_newline, List.splitOn_eq_singleton h]
  rfl

theorem lines_unended {line : List Char} (h : '\n' ∉ line) (hne : line ≠ []) :
    lines line = [line] := by
  rw [lines, List.splitOn_eq_singleton h, if_neg (by simpa using hne)]

/-- The lines of an input come one after the other. -/
theorem lines_induction {motive : List Char → Prop} (nil : motive [])
    (unended : ∀ line, '\n' ∉ line → line ≠ [] → motive line)
    (ended : ∀ line rest, '\n' ∉ line → motive rest → motive (line ++ '\n' :: rest))
    (input : List Char) : motive input := by
  induction hlength : input.length using Nat.strong_induction_on generalizing input with
  | _ n ih =>
    by_cases hmem : '\n' ∈ input
    · obtain ⟨line, rest, rfl, hline⟩ := List.eq_append_cons_of_mem hmem
      refine ended line rest hline (ih rest.length ?_ rest rfl)
      rw [← hlength, List.length_append, List.length_cons]
      omega
    · by_cases hne : input = []
      · exact hne ▸ nil
      · exact unended input hmem hne

/-- An input that ends where a line ends. -/
def Complete (input : List Char) : Prop := input = [] ∨ input.getLast? = some '\n'

/-- **Complete lines come before the lines of what follows.** -/
theorem lines_append {input : List Char} (h : Complete input) (more : List Char) :
    lines (input ++ more) = lines input ++ lines more := by
  rcases h with rfl | h
  · rfl
  · obtain ⟨text, rfl⟩ := List.getLast?_eq_some_iff.mp h
    have hnil : lines [] = [] := rfl
    rw [List.append_assoc, List.singleton_append, lines_append_newline, lines_append_newline, hnil,
      List.append_nil]

/-! ## Active lines -/

theorem active_cons (line : List Char) (rest : List (List Char)) :
    active (line :: rest) = if trim line = [] then [] else line :: active rest := by
  rw [active, List.takeWhile_cons, active]
  split
  · rename_i h
    rw [if_neg (by simpa using h)]
  · rename_i h
    rw [if_pos (by simpa using h)]

theorem active_append_blank (before after : List (List Char)) {line : List Char}
    (h : trim line = []) : active (before ++ line :: after) = active before := by
  induction before with
  | nil =>
    rw [List.nil_append, active_cons, if_pos h]
    rfl
  | cons first before ih => rw [List.cons_append, active_cons, active_cons, ih]

theorem active_append {before : List (List Char)} (h : ∀ line ∈ before, trim line ≠ [])
    (after : List (List Char)) : active (before ++ after) = before ++ active after := by
  induction before with
  | nil => rfl
  | cons first before ih =>
    obtain ⟨hfirst, hbefore⟩ := List.forall_mem_cons.mp h
    rw [List.cons_append, active_cons, if_neg hfirst, ih hbefore, List.cons_append]

/-! ## Whole sessions -/

theorem transcript_active_cons (line : List Char) (rest : List (List Char)) :
    transcript (active (line :: rest)) = answer line (transcript (active rest)) := by
  rw [active_cons, answer]
  split
  · rfl
  · rw [transcript, transcript, List.map_cons, List.map_cons, String.join_cons, String.join_cons,
      String.append_assoc]

/-- **A session writes what is written for its active lines**, and nothing is kept from one to the
next. -/
theorem run_eq (input : List Char) : run input = transcript (active (lines input)) := by
  have hnil : run [] = transcript (active []) := by
    rw [run]
    rfl
  induction input using lines_induction with
  | nil => exact hnil
  | unended line h hne => rw [run_unended h hne, hnil, lines_unended h hne, transcript_active_cons]
  | ended line rest h ih => rw [run_ended h, ih, lines_ended h, transcript_active_cons]

/-- **A session is the sequence of its lines up to the first blank one.**  It shows a prompt and the
value of each line, or complains about the line, and shows a last prompt.  What follows a blank line
does not count, and a session on complete lines goes on with the session on what follows them. -/
theorem run_lines :
    exitCode = 0 ∧
      (∀ input,
        (run input).output =
            String.join ((active (lines input)).map fun line => "> " ++ shown line) ++ "> " ∧
          (run input).errors = String.join ((active (lines input)).map complaint)) ∧
      (∀ before line rest, Complete before → '\n' ∉ line → trim line = [] →
        run (before ++ line ++ '\n' :: rest) = run before) ∧
      ∀ before after, Complete before → (∀ line ∈ lines before, trim line ≠ []) →
        ∃ output, (run before).output = output ++ "> " ∧
          (run (before ++ after)).output = output ++ (run after).output ∧
          (run (before ++ after)).errors = (run before).errors ++ (run after).errors := by
  refine ⟨rfl, ?_, ?_, ?_⟩
  · intro input
    rw [run_eq]
    exact ⟨rfl, rfl⟩
  · intro before line rest hbefore hline hblank
    rw [run_eq, run_eq, List.append_assoc, lines_append hbefore, lines_ended hline,
      active_append_blank _ _ hblank]
  · intro before after hbefore hactive
    have hself : active (lines before) = lines before := by
      have hnil := active_append hactive []
      rw [List.append_nil] at hnil
      exact hnil.trans (List.append_nil _)
    refine ⟨_, by rw [run_eq before, hself, transcript]; rfl, ?_, ?_⟩
    · rw [run_eq, run_eq, lines_append hbefore, active_append hactive, output_transcript_append]
    · rw [run_eq, run_eq, run_eq, lines_append hbefore, active_append hactive, hself,
        errors_transcript_append]

/-- A value, a complaint and a line that is not complete, and then a blank line with more after
it. -/
theorem run_lines_quarter :
    Complete "1 / 4\n2 +\n".toList ∧ (∀ line ∈ lines "1 / 4\n2 +\n".toList, trim line ≠ []) ∧
      (run "1 / 4\n2 +\n".toList).output = "> 0.25\n> > " ∧
      (run "1 / 4\n2 +\n".toList).errors =
        "Error parse error: expected operand, found end of input\n" ∧
      (run "1 / 4\n2 +\n-0".toList).output = "> 0.25\n> > -0\n> " ∧
      '\n' ∉ " \t".toList ∧ trim " \t".toList = [] ∧
      run "1 / 4\n2 +\n \t\n3\n".toList = run "1 / 4\n2 +\n".toList := by
  obtain ⟨_, hrun, hblank, hafter⟩ := run_lines
  have hcomplete : Complete "1 / 4\n2 +\n".toList := Or.inr rfl
  have hactive : ∀ line ∈ lines "1 / 4\n2 +\n".toList, trim line ≠ [] := by
    have hlines : lines "1 / 4\n2 +\n".toList = ["1 / 4".toList, "2 +".toList] := by
      decide +kernel
    rw [hlines]
    decide
  have hbefore : (run "1 / 4\n2 +\n".toList).output = "> 0.25\n> " ++ "> " :=
    (hrun _).1.trans (by decide +kernel)
  have herrors : (run "1 / 4\n2 +\n".toList).errors =
      "Error parse error: expected operand, found end of input\n" :=
    (hrun _).2.trans (by decide +kernel)
  have hmore : (run "1 / 4\n2 +\n-0".toList).output = "> 0.25\n> > -0\n> " := by
    obtain ⟨output, houtput, hmore, _⟩ := hafter _ "-0".toList hcomplete hactive
    have hlast : (run "-0".toList).output = "> -0\n> " := (hrun _).1.trans (by decide +kernel)
    have hfirst : output = "> 0.25\n> " :=
      (String.append_left_inj _).mp (houtput.symm.trans hbefore)
    exact hmore.trans (by rw [hfirst, hlast]; decide)
  have hnone : '\n' ∉ " \t".toList ∧ trim " \t".toList = [] := by decide
  have hstop := hblank _ " \t".toList "3\n".toList hcomplete hnone.1 hnone.2
  exact ⟨hcomplete, hactive, hbefore, herrors, hmore, hnone.1, hnone.2, hstop⟩

end Session

end InfixCalculator
