import InfixCalculator.Number.Binary.Text
import InfixCalculator.Proofs.Text.Run

/-!
# Positional decimals are read back

A binary number is written as a positional decimal: its digits, with zeros for
the places that have none and a point if there are places below one.  Reading
such a text gives digits and an exponent that may differ from the ones that were
written, for zeros move between the two, but not the number they denote.

* `readDecimal?_whole`, `readDecimal?_point`: digits without and with a point.
* `ofDecimal_shift`: zeros at the end of the digits count as an exponent.
* `readDecimal?_positional`: what is written positionally denotes the same number.
* `read?_text`: the text of a number is read back, for infinities and for what
  is not a number, too.
-/

namespace InfixCalculator

/-! ## Digits -/

/-- A text of digits only. -/
def Digits (text : List Char) : Prop := ∀ c ∈ text, c.isDigit = true

theorem digits_natText (n : Nat) : Digits (natText n) := fun _ hc => isDigit_of_mem_natText hc

theorem digits_zeros (k : Nat) : Digits (List.replicate k '0') := by
  intro c hc
  rw [List.eq_of_mem_replicate hc]
  decide

theorem Digits.append {v w : List Char} (hv : Digits v) (hw : Digits w) : Digits (v ++ w) :=
  fun c hc => (List.mem_append.mp hc).elim (hv c) (hw c)

theorem Digits.of_append {v w : List Char} (h : Digits (v ++ w)) : Digits v ∧ Digits w :=
  List.forall_mem_append.mp h

theorem Digits.readNat? {text : List Char} (h : Digits text) (hne : text ≠ []) :
    readNat? text = some (Nat.ofDigitChars 10 text 0) := by
  have hempty : text.isEmpty = false := by simp [hne]
  have hall : text.all Char.isDigit = true := List.all_eq_true.mpr h
  simp only [InfixCalculator.readNat?, hempty, hall, Bool.not_false, Bool.and_self, if_true]

theorem ofDigitChars_natText (n : Nat) : Nat.ofDigitChars 10 (natText n) 0 = n :=
  Nat.ofDigitChars_toDigits (by decide) (by decide)

/-- Zeros before the digits of a number mean nothing. -/
theorem readNat?_zeros_natText (k n : Nat) :
    readNat? (List.replicate k '0' ++ natText n) = some n := by
  have hdigits : Digits (List.replicate k '0' ++ natText n) :=
    (digits_zeros k).append (digits_natText n)
  rw [hdigits.readNat? (by simp [natText_ne_nil]), Nat.ofDigitChars_append,
    Nat.ofDigitChars_replicate_zero, Nat.mul_zero, ofDigitChars_natText]

/-- Zeros after the digits of a number multiply it by powers of ten. -/
theorem readNat?_natText_zeros (k n : Nat) :
    readNat? (natText n ++ List.replicate k '0') = some (n * Nat.pow 10 k) := by
  have hdigits : Digits (natText n ++ List.replicate k '0') :=
    (digits_natText n).append (digits_zeros k)
  rw [hdigits.readNat? (by simp [natText_ne_nil]), Nat.ofDigitChars_append,
    Nat.ofDigitChars_replicate_zero, ofDigitChars_natText, Nat.mul_comm]
  rfl

theorem natText_mul_ten {n : Nat} (hn : 0 < n) : natText (n * 10) = natText n ++ ['0'] := by
  have hzero : Nat.toDigits 10 0 = ['0'] := by decide
  rw [natText, natText, ← hzero, Nat.toDigits_append_toDigits (by decide) hn (by decide),
    Nat.add_zero, Nat.mul_comm]

theorem length_natText_mul_pow {n : Nat} (hn : 0 < n) (k : Nat) :
    (natText (n * Nat.pow 10 k)).length = (natText n).length + k := by
  induction k with
  | zero => simp
  | succ k ih =>
    have hpos : 0 < n * Nat.pow 10 k := Nat.mul_pos hn (Nat.pow_pos (by decide))
    have hstep : n * Nat.pow 10 (k + 1) = n * Nat.pow 10 k * 10 := by
      rw [Nat.mul_assoc]
      rfl
    rw [hstep, natText_mul_ten hpos, List.length_append, ih]
    rfl

namespace Binary

variable {f : Format}

/-! ## Reading digits with a point -/

theorem readDecimal?_whole {text : List Char} {n : Nat} (h : Digits text)
    (hn : readNat? text = some n) : readDecimal? text = some (n, 0) := by
  have hrun : text.takeWhile Char.isDigit = text := List.takeWhile_eq_self_iff.mpr h
  simp [readDecimal?, hrun, hn, readExponent?]

theorem readDecimal?_point {whole fraction : List Char} {n : Nat} (hwhole : Digits whole)
    (hfraction : Digits fraction) (hn : readNat? (whole ++ fraction) = some n) :
    readDecimal? (whole ++ '.' :: fraction) = some (n, -(fraction.length : Int)) := by
  have hpoint : Maximal Char.isDigit whole ('.' :: fraction) := by
    refine ⟨hwhole, ?_⟩
    intro c hc
    cases hc
    decide
  have hrun : fraction.takeWhile Char.isDigit = fraction :=
    List.takeWhile_eq_self_iff.mpr hfraction
  simp [readDecimal?, hpoint.takeWhile_eq, hrun, hn, readExponent?]

/-! ## Digits in their places -/

/-- The parts of a positional decimal with places below one. -/
theorem exists_positional_point (digits : Nat) {exponent : Int} (h : exponent < 0) :
    ∃ whole fraction, positional digits exponent = whole ++ '.' :: fraction ∧ whole ≠ [] ∧
      Digits whole ∧ Digits fraction ∧ readNat? (whole ++ fraction) = some digits ∧
      -(fraction.length : Int) = exponent := by
  obtain ⟨places, rfl⟩ : ∃ places : Nat, exponent = -(places : Int) :=
    ⟨exponent.natAbs, by omega⟩
  set padded := List.replicate (places + 1 - (natText digits).length) '0' ++ natText digits
    with hpadded
  have hlength : places < padded.length := by
    rw [hpadded, List.length_append, List.length_replicate]
    omega
  have hdigits : Digits (padded.take (padded.length - places) ++
      padded.drop (padded.length - places)) := by
    rw [List.take_append_drop]
    exact (digits_zeros _).append (digits_natText digits)
  refine ⟨padded.take (padded.length - places), padded.drop (padded.length - places), ?_, ?_,
    hdigits.of_append.1, hdigits.of_append.2, ?_, ?_⟩
  · simp only [positional, if_neg (Int.not_le.mpr h), Int.neg_neg, Int.toNat_natCast, hpadded]
  · rw [← List.length_pos_iff, List.length_take]
    omega
  · rw [List.take_append_drop]
    exact readNat?_zeros_natText _ digits
  · rw [List.length_drop]
    omega

/-- Zeros at the end of the digits count as an exponent. -/
theorem ofDecimal_shift (negative : Bool) (digits k : Nat) :
    (ofDecimal negative (digits * Nat.pow 10 k) 0 : Binary f) = ofDecimal negative digits k := by
  rcases Nat.eq_zero_or_pos digits with rfl | hpos
  · simp [ofDecimal]
  have hne : digits ≠ 0 := Nat.ne_of_gt hpos
  have hne' : digits * Nat.pow 10 k ≠ 0 :=
    Nat.ne_of_gt (Nat.mul_pos hpos (Nat.pow_pos (by decide)))
  have hplace : ((natText (digits * Nat.pow 10 k)).length : Int) + 0 =
      (natText digits).length + (k : Int) := by
    rw [length_natText_mul_pow hpos]
    omega
  have hquanta : digits * Nat.pow 10 k * Nat.pow 10 (0 : Int).toNat * one f =
      digits * Nat.pow 10 (k : Int).toNat * one f := by
    rw [Int.toNat_natCast, Int.toNat_zero]
    simp
  have hk : (0 : Int) ≤ k := Int.natCast_nonneg k
  simp only [ofDecimal, if_neg hne, if_neg hne', hplace, if_pos hk,
    if_pos (Int.le_refl 0), hquanta]

/-- **Reading a positional decimal** gives digits and an exponent that denote the same number. -/
theorem readDecimal?_positional (digits : Nat) (exponent : Int) :
    ∃ d, readDecimal? (positional digits exponent) = some d ∧
      ∀ negative, (ofDecimal negative d.1 d.2 : Binary f) = ofDecimal negative digits exponent := by
  rcases Int.lt_or_le exponent 0 with hneg | hpos
  · obtain ⟨whole, fraction, htext, _, hwhole, hfraction, hn, hlength⟩ :=
      exists_positional_point digits hneg
    refine ⟨(digits, exponent), ?_, fun _ => rfl⟩
    rw [htext, readDecimal?_point hwhole hfraction hn, hlength]
  · obtain ⟨k, rfl⟩ := Int.eq_ofNat_of_zero_le hpos
    have htext : positional digits k = natText digits ++ List.replicate k '0' := by
      rw [positional, if_pos hpos, Int.toNat_natCast]
    refine ⟨(digits * Nat.pow 10 k, 0), ?_, fun negative => ofDecimal_shift negative digits k⟩
    rw [htext]
    exact readDecimal?_whole ((digits_natText digits).append (digits_zeros k))
      (readNat?_natText_zeros k digits)

/-- A text that begins with a digit and holds digits and points only. -/
structure Numeral (text : List Char) : Prop where
  head : ∃ c rest, text = c :: rest ∧ c.isDigit = true
  all : ∀ c ∈ text, c.isDigit = true ∨ c = '.'

theorem numeral_of_digits {text : List Char} (hne : text ≠ []) (h : Digits text) :
    Numeral text := by
  obtain ⟨c, rest, rfl⟩ := List.exists_cons_of_ne_nil hne
  exact ⟨⟨c, rest, rfl, h c (List.mem_cons_self ..)⟩, fun d hd => Or.inl (h d hd)⟩

theorem numeral_positional (digits : Nat) (exponent : Int) :
    Numeral (positional digits exponent) := by
  rcases Int.lt_or_le exponent 0 with hneg | hpos
  · obtain ⟨whole, fraction, htext, hne, hwhole, hfraction, _, _⟩ :=
      exists_positional_point digits hneg
    obtain ⟨c, rest, rfl⟩ := List.exists_cons_of_ne_nil hne
    rw [htext]
    refine ⟨⟨c, rest ++ '.' :: fraction, rfl, hwhole c (List.mem_cons_self ..)⟩, ?_⟩
    intro d hd
    rcases List.mem_append.mp hd with hd | hd
    · exact Or.inl (hwhole d hd)
    · rcases List.mem_cons.mp hd with rfl | hd
      · exact Or.inr rfl
      · exact Or.inl (hfraction d hd)
  · rw [positional, if_pos hpos]
    exact numeral_of_digits (by simp [natText_ne_nil])
      ((digits_natText digits).append (digits_zeros _))

theorem numeral_quantaText (f : Format) (n : Nat) : Numeral (quantaText f n) := by
  unfold quantaText
  split
  · exact numeral_of_digits (by decide) (digits_zeros 1)
  · exact numeral_positional _ _

/-! ## Reading what was written -/

/-- A text that begins with a digit is no word. -/
theorem readMagnitude?_of_isDigit (negative : Bool) {c : Char} {rest : List Char}
    (hc : c.isDigit = true) :
    (readMagnitude? negative (c :: rest) : Option (Binary f)) =
      (readDecimal? (c :: rest)).map fun d => ofDecimal negative d.1 d.2 := by
  have hlower : c.toLower = c := by
    rw [Char.isDigit_iff_toNat] at hc
    unfold Char.toLower
    split
    · rename_i h
      have hupper : 'A'.toNat ≤ c.toNat := h.1
      have hA : 'A'.toNat = 65 := rfl
      have h9 : '9'.toNat = 57 := rfl
      omega
    · rfl
  have hword : ∀ word : List Char, word.head? ≠ some c →
      ¬String.ofList ((c :: rest).map Char.toLower) = String.ofList word := by
    intro word hhead h
    rw [String.ofList_inj] at h
    rw [← h, List.map_cons, hlower] at hhead
    exact hhead rfl
  have hi : ('i' : Char) ≠ c := by
    rintro rfl
    cases hc
  have hn : ('n' : Char) ≠ c := by
    rintro rfl
    cases hc
  have hinf := hword ['i', 'n', 'f'] (by simp [hi])
  have hinfinity := hword ['i', 'n', 'f', 'i', 'n', 'i', 't', 'y'] (by simp [hi])
  have hnan := hword ['n', 'a', 'n'] (by simp [hn])
  unfold readMagnitude?
  rw [if_neg (not_or.mpr ⟨hinf, hinfinity⟩), if_neg hnan]

theorem ofDecimal_true (digits : Nat) (exponent : Int) :
    (ofDecimal true digits exponent : Binary f) = (ofDecimal false digits exponent).neg := by
  have hquotient : ∀ num den : Nat,
      (ofQuotient true num den : Binary f) = (ofQuotient false num den).neg := by
    intro num den
    unfold ofQuotient
    split <;> rfl
  unfold ofDecimal
  split
  · rfl
  · simp only
    split
    · rfl
    split
    · rfl
    split
    · exact hquotient _ _
    · exact hquotient _ _

theorem ofDecimal_of_false {digits : Nat} {exponent : Int} {n : Nat} {h : f.Fits n}
    (hfalse : (ofDecimal false digits exponent : Binary f) = .finite false n h)
    (negative : Bool) : (ofDecimal negative digits exponent : Binary f) = .finite negative n h := by
  cases negative with
  | false => exact hfalse
  | true => rw [ofDecimal_true, hfalse, neg, Bool.not_false]

theorem readMagnitude?_quantaText (negative : Bool) {n : Nat} (h : f.Fits n) :
    readMagnitude? negative (quantaText f n) = some (.finite negative n h : Binary f) := by
  obtain ⟨c, rest, htext, hc⟩ := (numeral_quantaText f n).head
  rw [htext, readMagnitude?_of_isDigit negative hc, ← htext]
  unfold quantaText
  split
  · rename_i hzero
    subst hzero
    have hone : readDecimal? ['0'] = some (0, 0) := by decide
    rw [hone]
    simp [ofDecimal, zero]
  · obtain ⟨d, hd, hsame⟩ := readDecimal?_positional (f := f)
      (shortest f n (natText (exactDigits f n)).length).1
      (shortest f n (natText (exactDigits f n)).length).2
    simp only [hd, Option.map_some, hsame,
      ofDecimal_of_false (ofDecimal_shortest h _) negative]

theorem read?_of_isDigit {c : Char} {rest : List Char} (hc : c.isDigit = true) :
    (read? (c :: rest) : Option (Binary f)) = readMagnitude? false (c :: rest) := by
  unfold read?
  split
  · rename_i heq
    cases heq
    cases hc
  · rename_i heq
    cases heq
    cases hc
  · rfl

/-- **What is written of a number is read back.** -/
theorem read?_text (x : Binary f) : read? x.text = some x := by
  cases x with
  | nan => rfl
  | infinity negative =>
    cases negative with
    | false => rfl
    | true => rfl
  | finite negative n h =>
    cases negative with
    | false =>
      obtain ⟨c, rest, htext, hc⟩ := (numeral_quantaText f n).head
      rw [text, htext, read?_of_isDigit hc, ← htext, readMagnitude?_quantaText]
    | true =>
      rw [text, read?, readMagnitude?_quantaText]

end Binary

end InfixCalculator
