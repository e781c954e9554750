import Phrasebook.Value

/-!
Sub-parts: a formatted number or date, taken apart.

The values of the sub-parts of a text, one after the other, are the text
(`flatten_runs`); each sub-part has a kind that tells what its piece of text stands for.
-/

namespace Phrasebook

structure SubPart where
  kind : String
  value : Option Value
  deriving Inhabited

namespace SubPart

def ofChars (kind : String) (cs : List Char) : SubPart := ⟨kind, some (.string (String.ofList cs))⟩

/-! ## Numbers -/

/-- The parts of an unsigned number's text: what stands before the first point, the point and
what stands after it. -/
def ofUnsigned (cs : List Char) : List SubPart :=
  let whole := cs.takeWhile (· != '.')
  match cs.dropWhile (· != '.') with
  | [] => [ofChars "integer" whole]
  | point :: fraction =>
    [ofChars "integer" whole, ofChars "decimal" [point], ofChars "fraction" fraction]

/-- The parts of a number's text; a minus sign in front is one of them. -/
def ofNumberText (s : String) : List SubPart :=
  match s.toList with
  | '-' :: rest => ofChars "minusSign" ['-'] :: ofUnsigned rest
  | cs => ofUnsigned cs

/-! ## Dates -/

/-- The longest pieces of a text that are digits throughout or have no digit. -/
def runs : List Char → List (List Char)
  | [] => []
  | c :: rest =>
    match runs rest with
    | (d :: run) :: others =>
      if c.isDigit = d.isDigit then (c :: d :: run) :: others else [c] :: (d :: run) :: others
    | others => [c] :: others

/-- Runs with their kinds: digits are named after the fields in turn, and `integer` when no
field is left; what parts them is `literal`. -/
def nameRuns : List String → List (List Char) → List SubPart
  | _, [] => []
  | fields, run :: rest =>
    if run.head?.any Char.isDigit then
      ofChars (fields.headD "integer") run :: nameRuns fields.tail rest
    else ofChars "literal" run :: nameRuns fields rest

/-- The parts of a date's text, given what its fields are. -/
def ofDateText (s : String) (fields : List String) : List SubPart := nameRuns fields (runs s.toList)

/-- The runs of a text are the text. -/
theorem flatten_runs (cs : List Char) : (runs cs).flatten = cs := by
  induction cs with
  | nil => rfl
  | cons c rest ih =>
    rw [runs]
    split
    · next d run others h =>
      rw [h] at ih
      split <;> simpa using ih
    · simpa using ih

end SubPart

end Phrasebook
