/-!
# Quoted text

A text between double quotes.  Inside, a quote, a backslash and the control
characters below `U+0020` are escaped; every other character stands for itself.

* `Quoted.encode`: the quoted text.
* `Quoted.decode`: the text between the quotes.
* `decode_encode`: what is quoted is read back.
-/

namespace InfixCalculator.Quoted

/-- A digit of base sixteen, in lower case. -/
def hexDigit (n : Nat) : Char := Nat.digitChar n

/-- The value of a digit of base sixteen, in either case. -/
def hexValue? (c : Char) : Option Nat :=
  if c.isDigit then some (c.toNat - 0x30)
  else if 'a' ≤ c ∧ c ≤ 'f' then some (c.toNat - 0x57)
  else if 'A' ≤ c ∧ c ≤ 'F' then some (c.toNat - 0x37)
  else none

/-- The characters with an escape of one letter, each with its letter. -/
def letters : List (Char × Char) :=
  [('"', '"'), ('\\', '\\'), ('\x08', 'b'), ('\t', 't'), ('\n', 'n'), ('\x0c', 'f'), ('\r', 'r')]

/-- A character as it stands between quotes. -/
def escape (c : Char) : List Char :=
  match letters.find? fun p => p.1 == c with
  | some p => ['\\', p.2]
  | none =>
      if c.toNat < 0x20 then
        ['\\', 'u', '0', '0', hexDigit (c.toNat / 16), hexDigit (c.toNat % 16)]
      else [c]

/-- The quoted text. -/
def encode (text : List Char) : List Char := '"' :: (text.flatMap escape ++ ['"'])

/-- The character that a backslash and a letter stand for.  A slash may be escaped, too. -/
def named? (letter : Char) : Option Char :=
  if letter = '/' then some '/' else (letters.find? fun p => p.2 == letter).map Prod.fst

/-- The character with a code point of four digits.  Surrogates are no characters. -/
def coded? (a b c d : Char) : Option Char := do
  let n := ((← hexValue? a) * 16 + (← hexValue? b)) * 256 + (← hexValue? c) * 16 + (← hexValue? d)
  if n.isValidChar then some (Char.ofNat n) else none

/-- The text up to the closing quote, which has to be the last character. -/
def decodeRest : List Char → Option (List Char)
  | [] => none
  | '"' :: rest => if rest = [] then some [] else none
  | '\\' :: 'u' :: a :: b :: c :: d :: rest => do
      let x ← coded? a b c d
      let text ← decodeRest rest
      return x :: text
  | '\\' :: c :: rest => do
      let x ← named? c
      let text ← decodeRest rest
      return x :: text
  | c :: rest => if c.toNat < 0x20 then none else (decodeRest rest).map (c :: ·)

/-- The text between the quotes. -/
def decode : List Char → Option (List Char)
  | '"' :: rest => decodeRest rest
  | _ => none

/-! ## Reading back -/

theorem named?_of_mem : ∀ p ∈ letters, p.2 ≠ 'u' ∧ named? p.2 = some p.1 := by
  decide

theorem coded?_control : ∀ n < 32,
    coded? '0' '0' (hexDigit (n / 16)) (hexDigit (n % 16)) = some (Char.ofNat n) := by
  decide

theorem decodeRest_named {letter c : Char} (rest : List Char) (hu : letter ≠ 'u')
    (h : named? letter = some c) :
    decodeRest ('\\' :: letter :: rest) = (decodeRest rest).map (c :: ·) := by
  rw [decodeRest]
  · rw [h]
    cases decodeRest rest <;> rfl
  · intro _ _ _ _ _ hl _
    exact hu hl

/-- An escaped character is read back, whatever follows it. -/
theorem decodeRest_escape (c : Char) (rest : List Char) :
    decodeRest (escape c ++ rest) = (decodeRest rest).map (c :: ·) := by
  unfold escape
  cases h : letters.find? fun p => p.1 == c with
  | some p =>
      obtain ⟨hu, hn⟩ := named?_of_mem p (List.mem_of_find?_eq_some h)
      have hc : p.1 = c := by simpa using List.find?_some h
      exact hc ▸ decodeRest_named rest hu hn
  | none =>
      by_cases hlow : c.toNat < 0x20
      · have hc := coded?_control c.toNat hlow
        rw [Char.ofNat_toNat] at hc
        cases hr : decodeRest rest <;> simp [hlow, decodeRest, hc, hr]
      · have hquote : c ≠ '"' := by
          rintro rfl
          simp [letters] at h
        have hslash : c ≠ '\\' := by
          rintro rfl
          simp [letters] at h
        simp only [if_neg hlow, List.singleton_append]
        rw [decodeRest]
        · rw [if_neg hlow]
        · exact hquote
        · intro _ _ _ _ _ hc _
          exact hslash hc
        · intro _ _ hc _
          exact hslash hc

/-- What is quoted is read back. -/
theorem decode_encode (text : List Char) : decode (encode text) = some text := by
  show decodeRest (text.flatMap escape ++ ['"']) = some text
  induction text with
  | nil => rfl
  | cons c text ih =>
      rw [List.flatMap_cons, List.append_assoc, decodeRest_escape, ih]
      rfl

end InfixCalculator.Quoted
