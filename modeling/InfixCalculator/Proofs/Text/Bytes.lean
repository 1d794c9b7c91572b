import InfixCalculator.Text.Blank

/-!
# Bytes of a text

A character takes one to four bytes in UTF-8.  A position in a text that is
counted in bytes may thus stand inside a character, and then the text cannot be
cut there.  The positions that come from whole characters never do.

* `bytes`: a text in UTF-8.
* `charIndices`: the characters with the bytes before them; `charIndices_getElem?`.
* `runEnd`: where the run of a class at the start ends; `runEnd_eq`.
* `cutAt`: a text cut after a number of bytes, if a character ends there; `cutAt_append`.
-/

namespace InfixCalculator

/-- A text in UTF-8. -/
def bytes (text : List Char) : List UInt8 := text.flatMap String.utf8EncodeChar

theorem bytes_cons (c : Char) (text : List Char) :
    bytes (c :: text) = String.utf8EncodeChar c ++ bytes text := rfl

theorem utf8EncodeChar_length_pos (c : Char) : 0 < (String.utf8EncodeChar c).length := by
  rw [String.length_utf8EncodeChar]
  exact c.utf8Size_pos

/-- The characters of a text, each with the byte where it begins, counted from a start. -/
def charIndices : Nat → List Char → List (Nat × Char)
  | _, [] => []
  | start, c :: text => (start, c) :: charIndices (start + (String.utf8EncodeChar c).length) text

/-- The bytes up to a character are those of the characters before it. -/
theorem charIndices_getElem? (start : Nat) (text : List Char) (count : Nat) :
    (charIndices start text)[count]? =
      text[count]?.map fun c => (start + (bytes (text.take count)).length, c) := by
  induction text generalizing start count with
  | nil => rfl
  | cons c text ih =>
    cases count with
    | zero => rfl
    | succ count =>
      rw [charIndices, List.getElem?_cons_succ, ih, List.getElem?_cons_succ, List.take_succ_cons,
        bytes_cons, List.length_append, Nat.add_assoc]

/-- The byte where the longest run of a class at the start ends. -/
def runEnd (p : Char → Bool) : List Char → Nat
  | [] => 0
  | c :: text => if p c then (String.utf8EncodeChar c).length + runEnd p text else 0

theorem runEnd_eq (p : Char → Bool) (text : List Char) :
    runEnd p text = (bytes (text.takeWhile p)).length := by
  induction text with
  | nil => rfl
  | cons c text ih =>
    by_cases hc : p c = true
    · rw [runEnd, if_pos hc, List.takeWhile_cons_of_pos hc, bytes_cons, List.length_append, ih]
    · rw [runEnd, if_neg hc, List.takeWhile_cons_of_neg hc]
      rfl

/-- A text cut after a number of bytes.  There is no cut inside a character or behind the end. -/
def cutAt : List Char → Nat → Option (List Char × List Char)
  | text, 0 => some ([], text)
  | [], _ + 1 => none
  | c :: text, count + 1 =>
      if (String.utf8EncodeChar c).length ≤ count + 1 then
        (cutAt text (count + 1 - (String.utf8EncodeChar c).length)).map
          fun cut => (c :: cut.1, cut.2)
      else none

/-- A text can be cut after each of its beginnings. -/
theorem cutAt_append (before rest : List Char) :
    cutAt (before ++ rest) (bytes before).length = some (before, rest) := by
  induction before with
  | nil => cases rest <;> rfl
  | cons c before ih =>
    have hpos := utf8EncodeChar_length_pos c
    obtain ⟨count, hcount⟩ : ∃ count, (bytes (c :: before)).length = count + 1 :=
      Nat.exists_eq_add_one.mpr (by rw [bytes_cons, List.length_append]; omega)
    have hlength : (String.utf8EncodeChar c).length + (bytes before).length = count + 1 := by
      rw [← hcount, bytes_cons, List.length_append]
    have hrest : count + 1 - (String.utf8EncodeChar c).length = (bytes before).length := by omega
    rw [hcount, List.cons_append, cutAt, if_pos (by omega), hrest, ih]
    rfl

-- the first byte of two is not the end of the character
example : cutAt ['÷', '4'] 1 = none ∧ cutAt ['÷', '4'] 2 = some (['÷'], ['4']) := by decide

end InfixCalculator
