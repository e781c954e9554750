import Phrasebook.Message.Placeholder

/-!
Reading a whole message from its source.

`Message.scan` reads the source; `Message.validate` checks what no single piece shows: that
declared names differ, that variants have a key for each selector and that one variant
catches all. `Message.parse` does both.
-/

namespace Phrasebook

namespace Scanner

/-- The text up to the next placeholder or the end of the pattern, with escapes resolved. -/
def textRun (quotedPattern : Bool) : List Char → Position →
    Except SyntaxError (List Char × Cursor)
  | [], p => .ok ([], ⟨[], p⟩)
  | ['\\'], p => .error ⟨.invalidEscape, (Cursor.mk [] (p.advance '\\')).here⟩
  | '\\' :: c :: rest, p =>
    let q := p.advance '\\'
    if isEscapable c then do
      let (cs, d) ← textRun quotedPattern rest (q.advance c)
      return (c :: cs, d)
    else .error ⟨.invalidEscape, (Cursor.mk (c :: rest) q).here⟩
  | '\x7b' :: rest, p => .ok ([], ⟨'\x7b' :: rest, p⟩)
  | '\x7d' :: rest, p =>
    if quotedPattern && rest.head? == some '\x7d' then .ok ([], ⟨'\x7d' :: rest, p⟩)
    else .error ⟨.unbalancedBrace, (Cursor.mk ('\x7d' :: rest) p).here⟩
  | c :: rest, p => do
    let (cs, d) ← textRun quotedPattern rest (p.advance c)
    return (c :: cs, d)

def item? (quotedPattern : Bool) : Scanner (Option PatternItem) := do
  let c ← get
  let (cs, d) ← textRun quotedPattern c.rest c.position
  if !cs.isEmpty then
    set d
    return some (.text (String.ofList cs))
  else if c.rest.head? = some '\x7b' then return some (← placeholder)
  else return none

/-- The items of a pattern. A quoted pattern ends before two closing braces. -/
def pattern (quotedPattern : Bool) : Scanner Pattern := do
  let items ← collect fun _ => item? quotedPattern
  if quotedPattern && (← peek).isNone then fail .quotedPatternUnterminated
  return items

def quotedPattern : Scanner Pattern := do
  if !(← startsWith ['\x7b', '\x7b']) then fail .quotedPatternExpected
  skip 2
  let items ← pattern true
  skip 2
  return items

/-- Moves past a full stop and a keyword, if they are next and the keyword ends there. -/
def keyword? (word : String) : Scanner Bool := do
  let lead := '.' :: word.toList
  let c ← get
  if lead.isPrefixOf c.rest && !(c.rest.drop lead.length).head?.any isNameChar then
    skip lead.length
    return true
  else return false

/-- The rest of an `input` declaration, which names its variable in the expression. -/
def inputDeclaration : Scanner Declaration := do
  let _ ← skipBlanks
  let e ← expression
  match e.operand with
  | some (.variable name) => return ⟨.input, name, e⟩
  | _ => failAt .inputNeedsVariable e.span

def bindingDeclaration : Scanner Declaration := do
  if !(← skipBlanks) then fail .blankNeededAfterLocal
  expect '$'
  let name ← name
  let _ ← skipBlanks
  expect '='
  let _ ← skipBlanks
  return ⟨.binding, name, ← expression⟩

def declaration? : Scanner (Option Declaration) := do
  let _ ← skipBlanks
  if ← keyword? "input" then return some (← inputDeclaration)
  else if ← keyword? "local" then return some (← bindingDeclaration)
  else return none

def selector? : Scanner (Option String) := do
  let parted ← skipBlanks
  if (← peek) = some '$' then
    if !parted then fail .blankNeededBeforeSelector
    skip 1
    return some (← name)
  else return none

def key? : Scanner (Option VariantKey) := do
  match ← peek with
  | some '*' => do
    skip 1
    let _ ← skipBlanks
    return some .catchAll
  | some c =>
    if c = '|' || isLiteralStart c then do
      let text ← literal
      let _ ← skipBlanks
      return some (.literal text)
    else return none
  | none => return none

def variant? : Scanner (Option Variant) := do
  let _ ← skipBlanks
  if (← peek).isNone then return none
  let start ← position
  let keys ← collect fun _ => key?
  if keys.isEmpty then fail .variantKeyExpected
  let pattern ← quotedPattern
  return some ⟨keys, pattern, ← spanFrom start⟩

/-- The selectors and variants after the keyword. -/
def matcher : Scanner Matcher := do
  let start ← position
  let selectors ← collect fun _ => selector?
  if selectors.isEmpty then fail .selectorExpected
  let variants ← collect fun _ => variant?
  if variants.isEmpty then fail .variantExpected
  return ⟨selectors, variants, ← spanFrom start⟩

def body : Scanner Body := do
  if ← keyword? "match" then return .choice (← matcher)
  else if ← startsWith ['\x7b', '\x7b'] then return .pattern (← quotedPattern)
  else if (← peek) = some '.' then fail .unknownKeyword
  else fail .bodyExpected

/-- A message with declarations or with a quoted body. -/
def complexMessage : Scanner Message := do
  let declarations ← collect fun _ => declaration?
  let body ← body
  let _ ← skipBlanks
  if (← peek).isSome then fail .contentAfterBody
  return ⟨declarations, body⟩

/-- A message that is one pattern, blanks at its ends included. -/
def simpleMessage : Scanner Message := do return ⟨[], .pattern (← pattern false)⟩

end Scanner

/-- What is wrong with the variants of a matcher, if anything is. -/
def Matcher.fault? (m : Matcher) : Option SyntaxError :=
  match m.variants.find? (·.keys.length != m.selectors.length) with
  | some v => some ⟨.keyCountMismatch, v.span⟩
  | none => if m.variants.any (·.isCatchAll) then none else some ⟨.catchAllMissing, m.span⟩

namespace Message

/-- Whether the source, after blanks, starts with a full stop or with double braces. -/
def isComplex (cs : List Char) : Bool :=
  let rest := cs.dropWhile isBlank
  rest.head? == some '.' || ['\x7b', '\x7b'].isPrefixOf rest

def scan (source : String) : Except SyntaxError Message := do
  let cs := source.toList
  let scanner := if isComplex cs then Scanner.complexMessage else Scanner.simpleMessage
  let (message, _) ← scanner.run (.ofText cs)
  return message

/-- The first declaration whose name was declared before it, if there is one. -/
def firstRedeclaration (seen : List String) : List Declaration → Option Declaration
  | [] => none
  | d :: rest => if d.name ∈ seen then some d else firstRedeclaration (d.name :: seen) rest

def validate (message : Message) : Except SyntaxError Unit :=
  match firstRedeclaration [] message.declarations with
  | some d => throw ⟨.duplicateDeclaration d.name, d.expression.span⟩
  | none =>
    match message.body with
    | .pattern _ => return ()
    | .choice m =>
      match m.fault? with
      | some e => throw e
      | none => return ()

def parse (source : String) : Except SyntaxError Message := do
  let message ← scan source
  validate message
  return message

end Message

end Phrasebook
