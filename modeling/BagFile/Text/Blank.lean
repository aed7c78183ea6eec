/-
  White space, and text without it at the end.

  * `Text.isBlank` is the Unicode property White_Space;
  * `Text.trimEnd` drops the white space that ends a text.
-/

namespace BagFile.Text

/-- The code points with the property White_Space, as closed ranges. -/
def blanks : List (Nat × Nat) :=
  [(0x09, 0x0D), (0x20, 0x20), (0x85, 0x85), (0xA0, 0xA0), (0x1680, 0x1680), (0x2000, 0x200A),
   (0x2028, 0x2029), (0x202F, 0x202F), (0x205F, 0x205F), (0x3000, 0x3000)]

/-- Whether a character is white space. -/
def isBlank (c : Char) : Bool := blanks.any fun r => r.1 ≤ c.toNat && c.toNat ≤ r.2

/-- The table has every character that the core library calls white space. -/
theorem isBlank_of_isWhitespace {c : Char} (h : c.isWhitespace = true) : isBlank c = true := by
  simp only [Char.isWhitespace, Bool.or_eq_true, decide_eq_true_eq] at h
  rcases h with ((h | h) | h) | h <;> subst h <;> decide

/-- The text without the white space at its end. -/
def trimEnd (s : String) : String := String.ofList (s.toList.reverse.dropWhile isBlank).reverse

end BagFile.Text
