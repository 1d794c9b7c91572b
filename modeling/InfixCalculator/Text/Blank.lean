/-!
# Blank characters

A character is blank if Unicode gives it the property `White_Space`.  Blanks
separate the pieces of an expression and carry no other meaning.

* `isBlank`: the property, as ranges of code points.
* `dropBlank`, `trim`: a text without the blanks at its start, or at both ends.
-/

namespace InfixCalculator

/-- The characters with the Unicode property `White_Space`. -/
def isBlank (c : Char) : Bool :=
  let n := c.toNat
  (0x9 ≤ n && n ≤ 0xD) || n == 0x20 || n == 0x85 || n == 0xA0 || n == 0x1680 ||
    (0x2000 ≤ n && n ≤ 0x200A) || n == 0x2028 || n == 0x2029 || n == 0x202F || n == 0x205F ||
    n == 0x3000

/-- A digit is not blank. -/
theorem isBlank_eq_false_of_isDigit {c : Char} (h : c.isDigit = true) : isBlank c = false := by
  simp only [Char.isDigit, Bool.and_eq_true, decide_eq_true_eq, ge_iff_le, UInt32.le_iff_toNat_le]
    at h
  obtain ⟨h1, h2⟩ := h
  have h1 : 48 ≤ c.toNat := h1
  have h2 : c.toNat ≤ 57 := h2
  simp only [isBlank, Bool.or_eq_false_iff, Bool.and_eq_false_iff, decide_eq_false_iff_not,
    beq_eq_false_iff_ne]
  omega

/-- A text without the blanks at its start. -/
def dropBlank (text : List Char) : List Char := text.dropWhile isBlank

/-- A text without the blanks at both ends. -/
def trim (text : List Char) : List Char := (dropBlank (dropBlank text).reverse).reverse

end InfixCalculator
