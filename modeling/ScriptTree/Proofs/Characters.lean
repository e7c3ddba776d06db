import ScriptTree.Lexer.Trivia

/-! # The classes of characters, by code point

Blanks, letters, digits and the characters of symbols do not meet, so the first character of a text
decides which scanner reads it. -/
namespace ScriptTree.Text

theorem char_le_iff {c d : Char} : c ≤ d ↔ c.toNat ≤ d.toNat := by
  rw [Char.le_def, UInt32.le_iff_toNat_le, Char.toNat_val, Char.toNat_val]

theorem isDigit_iff {c : Char} : isDigit c = true ↔ 48 ≤ c.toNat ∧ c.toNat ≤ 57 := by
  simp only [isDigit, Bool.and_eq_true, decide_eq_true_eq, char_le_iff, Char.reduceToNat]

theorem isWordStart_iff {c : Char} : isWordStart c = true ↔
    97 ≤ c.toNat ∧ c.toNat ≤ 122 ∨ 65 ≤ c.toNat ∧ c.toNat ≤ 90 ∨ c.toNat = 95 ∨ c.toNat = 36 := by
  simp only [isWordStart, Bool.or_eq_true, Bool.and_eq_true, beq_iff_eq, decide_eq_true_eq,
    char_le_iff, ← Char.toNat_inj, Char.reduceToNat]
  omega

theorem isWordPart_iff {c : Char} : isWordPart c = true ↔ isWordStart c = true ∨ isDigit c = true :=
  Bool.or_eq_true_iff

theorem isWordStart_eq_false_of_isDigit {c : Char} (h : isDigit c = true) :
    isWordStart c = false := by
  rw [isDigit_iff] at h
  rw [Bool.eq_false_iff, Ne, isWordStart_iff]
  omega

/-- The only blanks in ASCII are six control characters and the space. -/
theorem le_of_isBlank {c : Char} (h : isBlank c = true) :
    9 ≤ c.toNat ∧ c.toNat ≤ 13 ∨ c.toNat = 32 ∨ 128 ≤ c.toNat := by
  simp only [isBlank, Bool.or_eq_true, Bool.and_eq_true, beq_iff_eq, decide_eq_true_eq] at h
  omega

theorem isWordPart_eq_false_of_isBlank {c : Char} (h : isBlank c = true) : isWordPart c = false := by
  have hc := le_of_isBlank h
  rw [Bool.eq_false_iff, Ne, isWordPart_iff, isWordStart_iff, isDigit_iff]
  omega

theorem isBlank_eq_false_of_isWordPart {c : Char} (h : isWordPart c = true) : isBlank c = false := by
  cases hb : isBlank c with
  | false => rfl
  | true =>
    rw [isWordPart_eq_false_of_isBlank hb] at h
    cases h

theorem ne_of_isWordPart {c d : Char} (h : isWordPart c = true) (hd : isWordPart d = false) :
    c ≠ d := by
  rintro rfl
  rw [hd] at h
  cases h

theorem ne_of_isBlank {c d : Char} (h : isBlank c = true) (hd : isBlank d = false) : c ≠ d := by
  rintro rfl
  rw [hd] at h
  cases h

end ScriptTree.Text
