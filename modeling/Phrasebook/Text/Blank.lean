/-!
White space in text that people write, and its removal from both ends.

The class is Unicode's White_Space property. Message patterns have a narrower class of
their own (`Phrasebook.isBlank`); this one trims operands, links and names.
-/

namespace Phrasebook.Text

/-- Membership in Unicode's White_Space property: twenty-five characters. -/
def isSpace (c : Char) : Bool :=
  ('\t' ≤ c && c ≤ '\r') || c == ' ' || c == '\u0085' || c == '\u00a0' || c == '\u1680' ||
  ('\u2000' ≤ c && c ≤ '\u200a') || c == '\u2028' || c == '\u2029' || c == '\u202f' ||
  c == '\u205f' || c == '\u3000'

/-- The characters without the white space before them. -/
def trimStart (cs : List Char) : List Char := cs.dropWhile isSpace

/-- The characters without the white space around them. -/
def trimChars (cs : List Char) : List Char :=
  (trimStart (trimStart cs).reverse).reverse

/-- The text without the white space around it. -/
def trim (s : String) : String := String.ofList (trimChars s.toList)

theorem isSpace_of_isWhitespace {c : Char} (h : c.isWhitespace = true) : isSpace c = true := by
  simp only [Char.isWhitespace, Bool.or_eq_true, decide_eq_true_eq] at h
  rcases h with ((rfl | rfl) | rfl) | rfl <;> decide

end Phrasebook.Text
