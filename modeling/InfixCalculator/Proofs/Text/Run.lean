import InfixCalculator.Cursor
import Mathlib.Data.List.TakeWhile

/-!
# Runs of characters

A run of a class is maximal before a rest if the rest does not begin with a
character of the class.  Taking the longest run from a text and dropping the
blanks at its start are told here in these words.

* `Maximal.takeWhile_eq`, `maximal_takeWhile`: the longest run is the maximal one.
* `LongestRun`: a run that no other beginning of the text with its class exceeds.
* `Blank`: a text of blanks, which `dropBlank` takes away, and `trim` at the end, too.
* `Apart`: a text where every literal before it ends.
* `startsNegation_iff`: a `-` that is a sign, told by the character after it.
-/

namespace InfixCalculator

/-! ## Blanks -/

/-- A text of blanks only. -/
def Blank (text : List Char) : Prop := ∀ c ∈ text, isBlank c = true

-- a search for the instance may find the one that goes through all characters
instance (text : List Char) : Decidable (Blank text) :=
  List.decidableBAll (isBlank · = true) text

theorem blank_nil : Blank [] := by decide

theorem blank_space : Blank [' '] := by decide

theorem Blank.notMem {w : List Char} (hw : Blank w) {c : Char} (hc : isBlank c = false) :
    c ∉ w := by
  intro hmem
  rw [hw c hmem] at hc
  cases hc

theorem dropBlank_append {w : List Char} (hw : Blank w) (text : List Char) :
    dropBlank (w ++ text) = dropBlank text := List.dropWhile_append_of_pos hw

theorem dropBlank_eq_self {text : List Char} (h : ∀ c ∈ text.head?, isBlank c = false) :
    dropBlank text = text := by
  cases text with
  | nil => rfl
  | cons c rest =>
    have hc : isBlank c = false := h c rfl
    rw [dropBlank, List.dropWhile_cons_of_neg (by simp [hc])]

theorem dropBlank_cons {c : Char} (hc : isBlank c = false) (rest : List Char) :
    dropBlank (c :: rest) = c :: rest := by
  apply dropBlank_eq_self
  intro d hd
  cases hd
  exact hc

theorem dropBlank_of_blank {w : List Char} (hw : Blank w) : dropBlank w = [] := by
  have h := dropBlank_append hw []
  rwa [List.append_nil] at h

/-- Blanks at the end do not count where those at both ends are taken away. -/
theorem trim_append_blank (text : List Char) {w : List Char} (hw : Blank w) :
    trim (text ++ w) = trim text := by
  rw [trim, trim]
  by_cases hnil : dropBlank text = []
  · have hdrop : dropBlank (text ++ w) = [] := by
      rw [dropBlank, List.dropWhile_append, ← dropBlank, hnil]
      exact dropBlank_of_blank hw
    rw [hdrop, hnil]
  · have hdrop : dropBlank (text ++ w) = dropBlank text ++ w := by
      rw [dropBlank, List.dropWhile_append, ← dropBlank, if_neg (by simpa using hnil)]
    have hreverse : Blank w.reverse := fun c hc => hw c (List.mem_reverse.mp hc)
    rw [hdrop, List.reverse_append, dropBlank_append hreverse]

/-- A text that begins with a character that is not blank. -/
def Solid (text : List Char) : Prop := ∃ c ∈ text.head?, isBlank c = false

theorem solid_cons {c : Char} (hc : isBlank c = false) (text : List Char) : Solid (c :: text) :=
  ⟨c, rfl, hc⟩

theorem Solid.head?_append {text : List Char} (h : Solid text) (rest : List Char) :
    (text ++ rest).head? = text.head? := by
  obtain ⟨c, hc, _⟩ := h
  cases text with
  | nil => cases hc
  | cons d text => rfl

theorem Solid.dropBlank_append {text : List Char} (h : Solid text) (rest : List Char) :
    dropBlank (text ++ rest) = text ++ rest := by
  apply dropBlank_eq_self
  intro d hd
  obtain ⟨c, hc, hblank⟩ := h
  rw [Solid.head?_append ⟨c, hc, hblank⟩ rest, Option.mem_def.mp hc] at hd
  cases hd
  exact hblank

theorem exists_blank_append (text : List Char) : ∃ w, Blank w ∧ text = w ++ dropBlank text :=
  ⟨text.takeWhile isBlank, fun _ hc => List.mem_takeWhile_imp hc,
    List.takeWhile_append_dropWhile.symm⟩

/-! ## Maximal runs -/

/-- A run of a class that the rest after it does not extend. -/
structure Maximal (p : Char → Bool) (run rest : List Char) : Prop where
  all : ∀ c ∈ run, p c = true
  stop : ∀ c ∈ rest.head?, p c = false

theorem Maximal.takeWhile_eq {p : Char → Bool} {run rest : List Char} (h : Maximal p run rest) :
    (run ++ rest).takeWhile p = run := by
  rw [List.takeWhile_append_of_pos h.all]
  cases rest with
  | nil => simp
  | cons c rest =>
    have hc : p c = false := h.stop c rfl
    simp [hc]

theorem takeWhile_append_drop (p : Char → Bool) (text : List Char) :
    text.takeWhile p ++ text.drop (text.takeWhile p).length = text :=
  List.prefix_iff_eq_append.mp (List.takeWhile_prefix p)

theorem drop_length_takeWhile (p : Char → Bool) (text : List Char) :
    text.drop (text.takeWhile p).length = text.dropWhile p := by
  apply (List.append_right_inj (text.takeWhile p)).mp
  rw [takeWhile_append_drop, List.takeWhile_append_dropWhile]

/-- What is left behind the longest run does not begin with its class. -/
theorem eq_false_of_mem_head?_dropWhile (p : Char → Bool) (text : List Char) :
    ∀ c ∈ (text.dropWhile p).head?, p c = false := by
  intro c hc
  have hnot := List.head?_dropWhile_not p text
  rw [Option.mem_def.mp hc] at hnot
  simpa using hnot

theorem maximal_takeWhile (p : Char → Bool) (text : List Char) :
    Maximal p (text.takeWhile p) (text.drop (text.takeWhile p).length) := by
  refine ⟨fun c hc => List.mem_takeWhile_imp hc, ?_⟩
  rw [drop_length_takeWhile]
  exact eq_false_of_mem_head?_dropWhile p text

/-- The longest beginning of a text whose characters are all of a class. -/
structure LongestRun (p : Char → Prop) (run text : List Char) : Prop where
  begins : run <+: text
  all : ∀ c ∈ run, p c
  longest : ∀ other, other <+: text → (∀ c ∈ other, p c) → other <+: run

/-- A beginning that reaches beyond a maximal run has the character that stopped it. -/
theorem Maximal.longestRun {p : Char → Bool} {run rest : List Char} (h : Maximal p run rest) :
    LongestRun (p · = true) run (run ++ rest) := by
  refine ⟨List.prefix_append run rest, h.all, ?_⟩
  intro other hother hall
  rcases List.prefix_or_prefix_of_prefix hother (List.prefix_append run rest) with hle | hle
  · exact hle
  · obtain ⟨beyond, rfl⟩ := hle
    cases beyond with
    | nil => simp
    | cons d beyond =>
      obtain ⟨tail, htail⟩ := (List.prefix_append_right_inj run).mp hother
      have hstop : p d = false := h.stop d (by rw [← htail]; rfl)
      have hd : p d = true := hall d (by simp)
      rw [hstop] at hd
      cases hd

theorem longestRun_takeWhile (p : Char → Bool) (text : List Char) :
    LongestRun (p · = true) (text.takeWhile p) text := by
  have h := (maximal_takeWhile p text).longestRun
  rwa [takeWhile_append_drop] at h

/-- A run that is maximal stays so before a rest that begins in the same way. -/
theorem Maximal.congr {p : Char → Bool} {run rest rest' : List Char} (h : Maximal p run rest)
    (hhead : rest'.head? = rest.head?) : Maximal p run rest' :=
  ⟨h.all, hhead ▸ h.stop⟩

/-! ## Ends of runs -/

/-- A text that no literal before it reaches into. -/
def Apart (rest : List Char) : Prop := ∀ c ∈ rest.head?, isLiteralChar c = false

theorem apart_nil : Apart [] := by
  intro c hc
  cases hc

theorem apart_closing (rest : List Char) : Apart (')' :: rest) := by
  intro c hc
  cases hc
  decide

theorem dropBlank_closing (rest : List Char) : dropBlank (')' :: rest) = ')' :: rest :=
  dropBlank_cons (by decide) rest

theorem apart_of_blank {w : List Char} (hne : w ≠ []) (hw : Blank w) (rest : List Char) :
    Apart (w ++ rest) := by
  obtain ⟨c, v, rfl⟩ := List.exists_cons_of_ne_nil hne
  intro d hd
  cases hd
  simp [isLiteralChar, hw c (by simp)]

theorem isBlank_of_isOperatorChar {c : Char} (h : isOperatorChar c = true) :
    isBlank c = false := by
  simp only [isOperatorChar, Bool.and_eq_true, Bool.not_eq_true'] at h
  exact h.1.2

theorem isBlank_of_isLiteralChar {c : Char} (h : isLiteralChar c = true) : isBlank c = false := by
  simp only [isLiteralChar, Bool.and_eq_true, Bool.not_eq_true'] at h
  exact h.1

/-! ## Signs -/

theorem startsNegation_iff {text : List Char} :
    startsNegation text = true ↔
      ∃ c rest, text = '-' :: c :: rest ∧ c.isDigit = false := by
  constructor
  · intro h
    unfold startsNegation at h
    split at h
    · rename_i c rest
      exact ⟨c, rest, rfl, by simpa using h⟩
    · cases h
  · rintro ⟨c, rest, rfl, hc⟩
    simp [startsNegation, hc]

end InfixCalculator
