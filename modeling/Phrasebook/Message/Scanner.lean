import Phrasebook.Message.Cursor

/-!
Scanners: readers of the smallest pieces of message source.

A `Scanner` moves a cursor and gives a result, or stops with a syntax error. This module has
the character classes of names, literals and blanks, the scanners for names, identifiers and
literals, and `Scanner.collect`, which repeats a step for as long as it reads something.
-/

namespace Phrasebook

/-- Blanks between the pieces of a message: four of ASCII, the ideographic space and the three
marks of direction. -/
def isBlank (c : Char) : Bool :=
  c == ' ' || c == '\t' || c == '\r' || c == '\n' || c == '\u3000' ||
  c == '\u200e' || c == '\u200f' || c == '\u061c'

/-- Characters that start a name: letters of ASCII, the underscore, and all characters beyond
ASCII except blanks and controls. -/
def isNameStart (c : Char) : Bool :=
  c.isAlpha || c == '_' || ('\u00a0' ≤ c && !isBlank c)

def isNameChar (c : Char) : Bool := isNameStart c || c.isDigit || c == '-' || c == '.'

def isLiteralStart (c : Char) : Bool := isNameStart c || c.isDigit || c == '-'

def isLiteralChar (c : Char) : Bool := isNameChar c || c == '+'

/-- Characters that a backslash may stand before. -/
def isEscapable (c : Char) : Bool := c == '\\' || c == '\x7b' || c == '\x7d' || c == '|'

/-- A reader that moves a cursor, or stops with a syntax error. -/
abbrev Scanner := StateT Cursor (Except SyntaxError)

namespace Scanner

variable {α : Type}

def failAt (fault : SyntaxFault) (span : Span) : Scanner α := throw ⟨fault, span⟩

/-- Stops with a fault at the next character. -/
def fail (fault : SyntaxFault) : Scanner α := do failAt fault (← get).here

/-- The next character, which stays. -/
def peek : Scanner (Option Char) := do return (← get).rest.head?

def startsWith (cs : List Char) : Scanner Bool := do return cs.isPrefixOf (← get).rest

def skip (n : Nat) : Scanner Unit := modify (·.skip n)

/-- Moves past blanks, and tells whether there were any. -/
def skipBlanks : Scanner Bool := do
  let c ← get
  set (c.skipWhile isBlank)
  return c.rest.head?.any isBlank

def takeWhile (p : Char → Bool) : Scanner String := do
  let c ← get
  set (c.skipWhile p)
  return String.ofList (c.rest.takeWhile p)

/-- The span from a position to the cursor. -/
def spanFrom (p : Position) : Scanner Span := do return p.spanTo (← get).position.offset

def position : Scanner Position := do return (← get).position

def expect (expected : Char) : Scanner Unit := do
  let found ← peek
  if found = some expected then skip 1
  else fail (.characterExpected expected found)

def name : Scanner String := do
  match ← peek with
  | none => fail .placeholderUnclosed
  | some c => if isNameStart c then takeWhile isNameChar else fail .nameExpected

/-- A name, or two with a colon between them. -/
def identifier : Scanner String := do
  let first ← name
  match (← get).rest with
  | ':' :: c :: _ =>
    if isNameStart c then
      skip 1
      return first ++ ":" ++ (← name)
    else return first
  | _ => return first

/-- The rest of a literal between bars, from after the first bar, to after the second. -/
def quoted : List Char → Position → Except SyntaxError (List Char × Cursor)
  | [], p => .error ⟨.literalUnterminated, (Cursor.mk [] p).here⟩
  | '|' :: rest, p => .ok ([], ⟨rest, p.advance '|'⟩)
  | ['\\'], p => .error ⟨.invalidEscape, (Cursor.mk [] (p.advance '\\')).here⟩
  | '\\' :: c :: rest, p =>
    let q := (p.advance '\\').advance c
    if isEscapable c then do
      let (cs, d) ← quoted rest q
      return (c :: cs, d)
    else .error ⟨.invalidEscape, (Cursor.mk rest q).here⟩
  | c :: rest, p => do
    let (cs, d) ← quoted rest (p.advance c)
    return (c :: cs, d)

def literal : Scanner String := do
  let c ← get
  match c.rest with
  | '|' :: rest =>
    let (cs, d) ← quoted rest (c.position.advance '|')
    set d
    return String.ofList cs
  | _ =>
    let text ← takeWhile isLiteralChar
    if text.isEmpty then fail .literalExpected else return text

/-- Repeats a step, which is told what came before, until it gives nothing. A step that does
not move the cursor is the last one. -/
def collectFrom (step : List α → Scanner (Option α)) (found : List α) (c : Cursor) :
    Except SyntaxError (List α × Cursor) :=
  match step found c with
  | .error e => .error e
  | .ok (none, d) => .ok (found, d)
  | .ok (some a, d) =>
    if d.rest.length < c.rest.length then collectFrom step (found ++ [a]) d
    else .ok (found ++ [a], d)
termination_by c.rest.length

def collect (step : List α → Scanner (Option α)) : Scanner (List α) := collectFrom step []

end Scanner

end Phrasebook
