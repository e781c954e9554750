import Phrasebook.Message.Basic

/-!
Cursors: places in source text, and the syntax errors found there.

A `Position` counts bytes, lines and columns; `Position.advance` moves it over one character.
A `Cursor` is a position and the text that is left there. A `SyntaxError` is a `SyntaxFault`,
which says what is wrong, with the span at which it is.
-/

namespace Phrasebook

/-- A place between two characters of a source text. -/
structure Position where
  offset : Nat
  line : UInt32
  column : UInt32
  deriving DecidableEq, Repr

namespace Position

def start : Position := ⟨0, 1, 1⟩

/-- The place after a character: a line feed starts a line. The counts of lines and columns start
again from 0 where 32 bits do not hold them. -/
def advance (p : Position) (c : Char) : Position :=
  if c = '\n' then ⟨p.offset + c.utf8Size, p.line + 1, 1⟩
  else ⟨p.offset + c.utf8Size, p.line, p.column + 1⟩

def advanceOver (p : Position) (cs : List Char) : Position := cs.foldl advance p

/-- The span from this place to a later offset. -/
def spanTo (p : Position) (stop : Nat) : Span := ⟨p.offset, stop, p.line, p.column⟩

theorem advanceOver_append (p : Position) (cs ds : List Char) :
    p.advanceOver (cs ++ ds) = (p.advanceOver cs).advanceOver ds := List.foldl_append

end Position

/-- A place in a text, and what stands from there on. -/
structure Cursor where
  rest : List Char
  position : Position
  deriving DecidableEq, Repr

namespace Cursor

def ofText (cs : List Char) : Cursor := ⟨cs, .start⟩

/-- The span of the next character, empty at the end of the text. -/
def here (c : Cursor) : Span :=
  c.position.spanTo (c.position.offset + (c.rest.head?.elim 0 Char.utf8Size))

def skipWhile (c : Cursor) (p : Char → Bool) : Cursor :=
  ⟨c.rest.dropWhile p, c.position.advanceOver (c.rest.takeWhile p)⟩

def skip (c : Cursor) (n : Nat) : Cursor :=
  ⟨c.rest.drop n, c.position.advanceOver (c.rest.take n)⟩

/-- One cursor stands before another in the same text. -/
def Reaches (c d : Cursor) : Prop :=
  ∃ cs, c.rest = cs ++ d.rest ∧ d.position = c.position.advanceOver cs

theorem Reaches.refl (c : Cursor) : c.Reaches c := ⟨[], rfl, rfl⟩

theorem Reaches.trans {c d e : Cursor} (h : c.Reaches d) (h' : d.Reaches e) : c.Reaches e := by
  obtain ⟨cs, hr, hp⟩ := h
  obtain ⟨ds, hr', hp'⟩ := h'
  exact ⟨cs ++ ds, by rw [hr, hr', List.append_assoc],
    by rw [hp', hp, Position.advanceOver_append]⟩

theorem reaches_skipWhile (c : Cursor) (p : Char → Bool) : c.Reaches (c.skipWhile p) :=
  ⟨c.rest.takeWhile p, List.takeWhile_append_dropWhile.symm, rfl⟩

theorem reaches_skip (c : Cursor) (n : Nat) : c.Reaches (c.skip n) :=
  ⟨c.rest.take n, (List.take_append_drop n c.rest).symm, rfl⟩

end Cursor

/-- What can be wrong with the source of a message. -/
inductive SyntaxFault where
  | inputNeedsVariable
  | blankNeededAfterLocal
  | unknownKeyword
  | bodyExpected
  | contentAfterBody
  | blankNeededBeforeSelector
  | selectorExpected
  | variantKeyExpected
  | variantExpected
  | quotedPatternExpected
  | quotedPatternUnterminated
  | invalidEscape
  | unbalancedBrace
  | markupNotAllowed
  | placeholderUnclosed
  | expressionExpected
  | blankNeededBeforeFunction
  | duplicateOption (name : String)
  | literalUnterminated
  | literalExpected
  | nameExpected
  | characterExpected (expected : Char) (found : Option Char)
  | unexpectedInPlaceholder (found : Char)
  | duplicateDeclaration (name : String)
  | keyCountMismatch
  | catchAllMissing
  deriving DecidableEq, Repr

def SyntaxFault.message : SyntaxFault → String
  | .inputNeedsVariable => "input declaration requires a variable"
  | .blankNeededAfterLocal => "expected whitespace after .local"
  | .unknownKeyword => "unknown keyword"
  | .bodyExpected => "expected declaration or message body"
  | .contentAfterBody => "unexpected content after message body"
  | .blankNeededBeforeSelector => "expected whitespace before selector"
  | .selectorExpected => "expected selector"
  | .variantKeyExpected => "expected variant key"
  | .variantExpected => "expected at least one variant"
  | .quotedPatternExpected => "expected quoted pattern"
  | .quotedPatternUnterminated => "unterminated quoted pattern"
  | .invalidEscape => "invalid escape sequence"
  | .unbalancedBrace => "unbalanced closing brace"
  | .markupNotAllowed => "expected expression, found markup"
  | .placeholderUnclosed => "unclosed placeholder"
  | .expressionExpected => "expected expression"
  | .blankNeededBeforeFunction => "expected whitespace before annotation"
  | .duplicateOption name => "duplicate option '" ++ name ++ "'"
  | .literalUnterminated => "unterminated literal"
  | .literalExpected => "expected literal"
  | .nameExpected => "expected name"
  | .characterExpected expected none =>
    "expected '" ++ expected.toString ++ "', found end of input"
  | .characterExpected expected (some found) =>
    "expected '" ++ expected.toString ++ "', found '" ++ found.toString ++ "'"
  | .unexpectedInPlaceholder found => "unexpected '" ++ found.toString ++ "' in placeholder"
  | .duplicateDeclaration name => "duplicate declaration of '$" ++ name ++ "'"
  | .keyCountMismatch => "variant key count does not match selector count"
  | .catchAllMissing => "missing catch-all variant"

/-- A fault and the span of source text at which it was found. -/
structure SyntaxError where
  fault : SyntaxFault
  span : Span
  deriving DecidableEq, Repr

/-- The fault with the line and column of its place. -/
def SyntaxError.message (e : SyntaxError) : String :=
  e.fault.message ++ " at line " ++ toString e.span.line ++ ", column " ++
    toString e.span.column

end Phrasebook
