/-!
# Blank characters

The 25 characters with the property White_Space, and the removal of blanks at both ends of a
text. `isBlank_of_isWhitespace` says that the narrower class of plain ASCII whitespace is
contained.
-/

namespace FrozenScript.Text

/-- A range of code points, both ends included. -/
structure CodePointRange where
  first : Nat
  last : Nat

/-- The code points with the property White_Space. -/
def blankRanges : List CodePointRange :=
  [⟨0x9, 0xD⟩, ⟨0x20, 0x20⟩, ⟨0x85, 0x85⟩, ⟨0xA0, 0xA0⟩, ⟨0x1680, 0x1680⟩, ⟨0x2000, 0x200A⟩,
    ⟨0x2028, 0x2029⟩, ⟨0x202F, 0x202F⟩, ⟨0x205F, 0x205F⟩, ⟨0x3000, 0x3000⟩]

/-- Whether a character is blank. -/
def isBlank (c : Char) : Bool :=
  blankRanges.any fun range => range.first ≤ c.toNat && c.toNat ≤ range.last

/-- A text without the blanks at its two ends. -/
def trim (chars : List Char) : List Char :=
  ((chars.dropWhile isBlank).reverse.dropWhile isBlank).reverse

/-- ASCII whitespace is blank. -/
theorem isBlank_of_isWhitespace {c : Char} (h : c.isWhitespace = true) : isBlank c = true := by
  simp only [Char.isWhitespace, Bool.or_eq_true, decide_eq_true_eq] at h
  rcases h with ((h | h) | h) | h <;> subst h <;> decide

/-- A digit is not blank. -/
theorem isBlank_of_isDigit {c : Char} (h : c.isDigit = true) : isBlank c = false := by
  simp only [Char.isDigit_iff_toNat, Char.reduceToNat] at h
  simp only [isBlank, blankRanges, List.any_cons, List.any_nil, Bool.or_false, Bool.or_eq_false_iff,
    Bool.and_eq_false_iff, decide_eq_false_iff_not]
  omega

/-- A blank at the front of a text is trimmed away. -/
theorem trim_cons_of_isBlank {c : Char} (h : isBlank c = true) (chars : List Char) :
    trim (c :: chars) = trim chars := by
  rw [trim, List.dropWhile_cons_of_pos h, ← trim]

/-- A text without blanks is trimmed already. -/
theorem trim_eq_self {chars : List Char} (h : ∀ c ∈ chars, isBlank c = false) :
    trim chars = chars := by
  have hkeep : ∀ kept : List Char, (∀ c ∈ kept, isBlank c = false) →
      kept.dropWhile isBlank = kept := by
    intro kept hkept
    cases kept with
    | nil => rfl
    | cons c rest => exact List.dropWhile_cons_of_neg (by simp [hkept c (List.mem_cons_self ..)])
  rw [trim, hkeep chars h, hkeep _ fun c hc => h c (List.mem_reverse.mp hc), List.reverse_reverse]

end FrozenScript.Text
