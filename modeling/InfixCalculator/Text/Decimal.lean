/-!
# Decimal text of whole numbers

A natural number is written with its decimal digits, an integer with a `-` in
front if it is negative.  A reader also takes leading zeros and a `+`.

* `readNat?_natText`, `readInt?_intText`: what is written is read back.
* `head_natText`: a written number starts with a digit.
-/

namespace InfixCalculator

/-- The decimal digits of a natural number. -/
def natText (n : Nat) : List Char := Nat.toDigits 10 n

/-- The number that a run of digits denotes.  At least one digit is needed. -/
def readNat? (text : List Char) : Option Nat :=
  if !text.isEmpty && text.all Char.isDigit then some (Nat.ofDigitChars 10 text 0) else none

/-- The decimal text of an integer. -/
def intText (z : Int) : List Char :=
  if z < 0 then '-' :: natText z.natAbs else natText z.natAbs

/-- The integer that a text denotes: a sign, which may be left out, and digits. -/
def readInt? : List Char → Option Int
  | '-' :: digits => (readNat? digits).map fun n : Nat => -(n : Int)
  | '+' :: digits => (readNat? digits).map fun n : Nat => (n : Int)
  | digits => (readNat? digits).map fun n : Nat => (n : Int)

theorem isDigit_of_mem_natText {n : Nat} {c : Char} (h : c ∈ natText n) : c.isDigit = true :=
  Nat.isDigit_of_mem_toDigits (by decide) (by decide) h

theorem natText_ne_nil (n : Nat) : natText n ≠ [] := Nat.toDigits_ne_nil

theorem head_natText (n : Nat) : ∃ c rest, natText n = c :: rest ∧ c.isDigit = true := by
  cases h : natText n with
  | nil => exact absurd h (natText_ne_nil n)
  | cons c rest => exact ⟨c, rest, rfl, isDigit_of_mem_natText (n := n) (by simp [h])⟩

@[simp] theorem readNat?_natText (n : Nat) : readNat? (natText n) = some n := by
  have hne : (natText n).isEmpty = false := by simp [natText_ne_nil]
  have hall : (natText n).all Char.isDigit = true :=
    List.all_eq_true.mpr fun _ hc => isDigit_of_mem_natText hc
  simp only [readNat?, hne, hall, Bool.not_false, Bool.and_self, if_true]
  exact congrArg some (Nat.ofDigitChars_toDigits (by decide) (by decide))

/-- A text that starts with a digit has no sign to be read. -/
theorem readInt?_of_isDigit {c : Char} {rest : List Char} (h : c.isDigit = true) :
    readInt? (c :: rest) = (readNat? (c :: rest)).map fun n : Nat => (n : Int) := by
  unfold readInt?
  split
  · rename_i heq
    cases heq
    exact absurd h (by decide)
  · rename_i heq
    cases heq
    exact absurd h (by decide)
  · rfl

@[simp] theorem readInt?_intText (z : Int) : readInt? (intText z) = some z := by
  unfold intText
  split
  · simp only [readInt?, readNat?_natText, Option.map_some]
    congr 1
    omega
  · obtain ⟨c, rest, hc, hd⟩ := head_natText z.natAbs
    rw [hc, readInt?_of_isDigit hd, ← hc, readNat?_natText, Option.map_some]
    congr 1
    omega

end InfixCalculator
