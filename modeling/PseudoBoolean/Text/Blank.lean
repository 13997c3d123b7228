/-!
Blank characters: the Unicode property White_Space, 25 code points.
-/

namespace PseudoBoolean.Text

/-- The ranges of code points with the property White_Space, first and last. -/
def blankRanges : List (Nat × Nat) :=
  [(0x09, 0x0D), (0x20, 0x20), (0x85, 0x85), (0xA0, 0xA0), (0x1680, 0x1680), (0x2000, 0x200A),
    (0x2028, 0x2029), (0x202F, 0x202F), (0x205F, 0x205F), (0x3000, 0x3000)]

/-- Whether a character separates words. -/
def isBlank (c : Char) : Bool := blankRanges.any fun (lo, hi) => lo ≤ c.toNat && c.toNat ≤ hi

/-- The blanks of ASCII are blank. -/
theorem isBlank_of_isWhitespace {c : Char} (h : c.isWhitespace) : isBlank c := by
  simp only [Char.isWhitespace, Bool.or_eq_true, decide_eq_true_eq] at h
  rcases h with ((rfl | rfl) | rfl) | rfl <;> decide

/-- Digits, signs and letters of ASCII are not blank. -/
theorem isBlank_eq_false {c : Char} (lo : 0x20 < c.toNat) (hi : c.toNat < 0x7F) :
    isBlank c = false := by
  simp [isBlank, blankRanges]
  omega

end PseudoBoolean.Text
