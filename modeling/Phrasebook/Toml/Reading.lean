import Phrasebook.Calendar
import Phrasebook.Toml.Basic

/-!
Reading TOML text, version 1.0 of the format.

`Toml.parse?` reads the statements of a document and builds its table. Arrays and inline tables
may be nested at most 79 deep, and a key may have at most 79 parts.
-/

namespace Phrasebook.Toml

/-- The deepest nesting of arrays and inline tables, and the most parts of a key. -/
def depthLimit : Nat := 79

/-! ## Blanks, comments and lines -/

def isBlank (c : Char) : Bool := c == ' ' || c == '\t'

/-- Characters that may stand in comments and, but for their delimiters, in strings. -/
def isPrintable (c : Char) : Bool := c == '\t' || (' ' ≤ c && c != '\x7f')

def blanks : Reader Unit := do let _ ← Reader.takeWhile isBlank

/-- The end of a line, if it is next. -/
def lineBreak : Reader Bool := do
  if ← Reader.optional ['\n'] then return true
  Reader.optional ['\r', '\n']

def comment : Reader Bool := do
  if ← Reader.optional ['#'] then
    let _ ← Reader.takeWhile isPrintable
    return true
  else return false

/-- Blanks, comments and the ends of lines. -/
def spacing : Reader Unit := do
  let _ ← Reader.many do
    blanks
    let commented ← comment
    return if (← lineBreak) || commented then some () else none

/-- What may stand after a statement on its line, with the end of the line. -/
def lineEnd : Reader Unit := do
  blanks
  let _ ← comment
  if !(← lineBreak) then Reader.atEnd

/-! ## Strings -/

def isHexDigit (c : Char) : Bool :=
  c.isDigit || ('a' ≤ c && c ≤ 'f') || ('A' ≤ c && c ≤ 'F')

/-- The value of digits in a base; a letter counts from ten up. -/
def valueIn (base : Nat) (ds : List Char) : Nat :=
  let digit (c : Char) : Nat := if c.isDigit then c.toNat - 48 else c.toLower.toNat - 87
  ds.foldl (fun n c => n * base + digit c) 0

/-- Hexadecimal digits and the character that they number. -/
def numberedChar (digits : Nat) : Reader Char := do
  let ds ← (List.range digits).mapM fun _ => Reader.satisfy isHexDigit
  let n := valueIn 16 ds
  if n.isValidChar then return Char.ofNat n else Reader.fail

def escapedChar : Reader Char := do
  match ← Reader.next with
  | 'b' => return '\x08'
  | 't' => return '\t'
  | 'n' => return '\n'
  | 'f' => return '\x0c'
  | 'r' => return '\r'
  | '"' => return '"'
  | '\\' => return '\\'
  | 'u' => numberedChar 4
  | 'U' => numberedChar 8
  | _ => Reader.fail

/-- A string on one line. Only between double quotes are there escapes. -/
def lineString (quote : Char) : Reader String := do
  Reader.char quote
  let pieces ← Reader.many do
    let plain ← Reader.takeWhile fun c =>
      isPrintable c && c != quote && !(quote == '"' && c == '\\')
    if !plain.isEmpty then return some plain
    if quote == '"' then
      if ← Reader.optional ['\\'] then return some [← escapedChar]
    return none
  Reader.char quote
  return String.ofList pieces.flatten

def blankLines : Reader Unit := do
  let _ ← Reader.many do
    blanks
    return if ← lineBreak then some () else none

/-- The end of a line after a backslash, with all blanks and lines that follow, if it is
next. -/
def continuedLine : Reader Bool := do
  let start ← get
  blanks
  if ← lineBreak then
    blankLines
    return true
  else
    set start
    return false

/-- A piece of a string on several lines, unless the string ends. One or two quotes are a piece
of it. -/
def blockPiece? (quote : Char) : Reader (Option (List Char)) := do
  let plain ← Reader.takeWhile fun c =>
    isPrintable c && c != quote && !(quote == '"' && c == '\\')
  if !plain.isEmpty then return some plain
  if ← lineBreak then return some ['\n']
  match ← Reader.peek with
  | some c =>
    if c == quote then
      let quotes := (← get).takeWhile (· == quote)
      if quotes.length < 3 then Reader.takeWhile (· == quote) >>= fun qs => return some qs
      else return none
    else if c == '\\' then
      Reader.char '\\'
      if ← continuedLine then return some []
      else return some [← escapedChar]
    else return none
  | none => return none

/-- A string on several lines. The end of the first line is no part of it; up to two quotes
before the closing three are. -/
def blockString (quote : Char) : Reader String := do
  Reader.exactly [quote, quote, quote]
  let _ ← lineBreak
  let pieces ← Reader.many (blockPiece? quote)
  let quotes ← Reader.takeWhile (· == quote)
  if quotes.length < 3 || 5 < quotes.length then Reader.fail
  return String.ofList (pieces.flatten ++ quotes.drop 3)

def stringValue (quote : Char) : Reader String := do
  if [quote, quote, quote].isPrefixOf (← get) then blockString quote else lineString quote

/-! ## Keys -/

def isBareKeyChar (c : Char) : Bool := c.isAlphanum || c == '_' || c == '-'

def simpleKey : Reader String := do
  match ← Reader.peek with
  | some '"' => lineString '"'
  | some '\'' => lineString '\''
  | _ =>
    let cs ← Reader.takeWhile isBareKeyChar
    if cs.isEmpty then Reader.fail
    return String.ofList cs

/-- A key: its parts, with dots between them, and the blanks around these. -/
def key : Reader (List String) := do
  blanks
  let first ← simpleKey
  blanks
  let others ← Reader.many do
    if ← Reader.optional ['.'] then
      blanks
      let part ← simpleKey
      blanks
      return some part
    else return none
  if depthLimit ≤ others.length then Reader.fail
  return first :: others

/-! ## Numbers, dates and truth values -/

def isScalarChar (c : Char) : Bool :=
  c.isAlphanum || c == '_' || c == '+' || c == '-' || c == '.' || c == ':'

/-- Digits of a class with single underscores between them, without these. -/
def plainDigits? (p : Char → Bool) : List Char → Option (List Char)
  | [] => none
  | [c] => if p c then some [c] else none
  | c :: '_' :: rest => if p c then (plainDigits? p rest).map (c :: ·) else none
  | c :: rest => if p c then (plainDigits? p rest).map (c :: ·) else none

def unsigned (cs : List Char) : List Char :=
  match cs with
  | '+' :: rest => rest
  | '-' :: rest => rest
  | _ => cs

/-- Decimal digits without a needless zero in front. -/
def wholeDigits? (cs : List Char) : Option (List Char) := do
  let ds ← plainDigits? Char.isDigit cs
  if 1 < ds.length && ds.head? == some '0' then none else some ds

def fitsWord (base : Nat) (ds : List Char) : Bool := valueIn base ds < Nat.pow 2 63

def isInteger (cs : List Char) : Bool :=
  match cs with
  | '0' :: 'x' :: rest => (plainDigits? isHexDigit rest).any (fitsWord 16)
  | '0' :: 'o' :: rest => (plainDigits? (fun c => '0' ≤ c && c ≤ '7') rest).any (fitsWord 8)
  | '0' :: 'b' :: rest => (plainDigits? (fun c => c == '0' || c == '1') rest).any (fitsWord 2)
  | _ =>
    (wholeDigits? (unsigned cs)).any fun ds =>
      fitsWord 10 ds || (cs.head? == some '-' && Number.digitsValue ds == Nat.pow 2 63)

def isExponent (cs : List Char) : Bool := (plainDigits? Char.isDigit (unsigned cs)).isSome

/-- Whether a text is a number with a fraction or an exponent, or a word for a value without
digits. A positive number has to be in the range of finite numbers. -/
def isFloat (cs : List Char) : Bool :=
  let body := unsigned cs
  if body == ['i', 'n', 'f'] || body == ['n', 'a', 'n'] then true
  else
    let isMark (c : Char) : Bool := c == 'e' || c == 'E'
    let mantissa := body.takeWhile (!isMark ·)
    let exponent := body.dropWhile (!isMark ·)
    let whole := mantissa.takeWhile (· != '.')
    let fraction := mantissa.dropWhile (· != '.')
    (wholeDigits? whole).isSome &&
      (fraction.isEmpty || (plainDigits? Char.isDigit fraction.tail).isSome) &&
      (exponent.isEmpty || isExponent exponent.tail) &&
      !(fraction.isEmpty && exponent.isEmpty) &&
      Number.read? (String.ofList (cs.filter (· != '_'))) != some (.infinite false)

def dateText : Reader String := do
  let year ← Reader.digits 4 4
  Reader.char '-'
  let month ← Reader.digits 2 2
  Reader.char '-'
  let day ← Reader.digits 2 2
  match Date.mk? (Number.digitsValue year) (Number.digitsValue month) (Number.digitsValue day) with
  | some _ => return String.ofList (year ++ ['-'] ++ month ++ ['-'] ++ day)
  | none => Reader.fail

def twoDigits (bound : Nat) : Reader String := do
  let ds ← Reader.digits 2 2
  if Number.digitsValue ds < bound then return String.ofList ds else Reader.fail

/-- The digits of a fraction of a second: nine at most, and no zeros at the end. -/
def fractionText : Reader String := do
  if !(← Reader.optional ['.']) then return ""
  let ds ← Reader.takeWhile Char.isDigit
  if ds.isEmpty then Reader.fail
  let kept := ((ds.take 9).reverse.dropWhile (· == '0')).reverse
  return if kept.isEmpty then "" else String.ofList ('.' :: kept)

def timeText : Reader String := do
  let hour ← twoDigits 24
  Reader.char ':'
  let minute ← twoDigits 60
  Reader.char ':'
  let second ← twoDigits 61
  return hour ++ ":" ++ minute ++ ":" ++ second ++ (← fractionText)

/-- The offset of a time from universal time, if it is given; no offset is positive. -/
def offsetText : Reader String := do
  match ← Reader.peek with
  | none => return ""
  | some c =>
    let _ ← Reader.next
    if c == 'Z' || c == 'z' then return "Z"
    if !(c == '+' || c == '-') then Reader.fail
    let hour ← twoDigits 24
    Reader.char ':'
    let minute ← twoDigits 60
    let sign := if hour = "00" ∧ minute = "00" then "+" else c.toString
    return sign ++ hour ++ ":" ++ minute

def datetimeText : Reader String := do
  if ((← get)[2]?) == some ':' then timeText
  else
    let date ← dateText
    match ← Reader.peek with
    | none => return date
    | some _ =>
      let _ ← Reader.satisfy fun c => c == 'T' || c == 't' || c == ' '
      let time ← timeText
      return date ++ "T" ++ time ++ (← offsetText)

def scalar? (cs : List Char) : Option Value :=
  if cs == ['t', 'r', 'u', 'e'] then some (.boolean true)
  else if cs == ['f', 'a', 'l', 's', 'e'] then some (.boolean false)
  else if isInteger cs || isFloat cs then some .numeral
  else (datetimeText.run? cs).map .datetime

/-- A value that is no string and has no brackets. A time may follow a date after a blank. -/
def scalar : Reader Value := do
  let cs ← Reader.takeWhile isScalarChar
  let rest ← get
  let isDate := (dateText.run? cs).isSome
  let cs ← if isDate && rest.head? == some ' ' && rest.tail.head?.any Char.isDigit then do
      Reader.char ' '
      pure (cs ++ [' '] ++ (← Reader.takeWhile isScalarChar))
    else pure cs
  scalar? cs

/-! ## Values -/

/-- The items of an array, with a comma after each but perhaps the last. -/
def arrayItems (value : Reader Value) : Reader (List Value) := do
  Reader.char '['
  spacing
  let items ← Reader.many do
    match ← Reader.peek with
    | some ']' => return none
    | _ =>
      let v ← value
      spacing
      if !(← Reader.optional [',']) && (← Reader.peek) != some ']' then Reader.fail
      spacing
      return some v
  Reader.char ']'
  return items

def binding (value : Reader Value) : Reader (List String × Value) := do
  let path ← key
  Reader.char '='
  blanks
  return (path, ← value)

def inlineBindings (value : Reader Value) : Reader (List (List String × Value)) := do
  Reader.char '\x7b'
  blanks
  if ← Reader.optional ['\x7d'] then return []
  let first ← binding value
  let others ← Reader.many do
    blanks
    if ← Reader.optional [','] then return some (← binding value)
    else return none
  Reader.char '\x7d'
  return first :: others

def inlineTable (bindings : List (List String × Value)) : Option Value := do
  let entries ← bindings.foldlM (fun entries b => assign b.1 b.2 .header entries) []
  return .table (closeEntries entries)

/-- A value with arrays and inline tables nested so deep at most. -/
def value : Nat → Reader Value
  | 0 => fun cs => match cs with
    | '[' :: _ => none
    | '\x7b' :: _ => none
    | '"' :: _ => (stringValue '"' cs).map fun (s, rest) => (.string s, rest)
    | '\'' :: _ => (stringValue '\'' cs).map fun (s, rest) => (.string s, rest)
    | _ => scalar cs
  | depth + 1 => do
    match ← Reader.peek with
    | some '[' => return .array (← arrayItems (value depth))
    | some '\x7b' => do
      let bindings ← inlineBindings (value depth)
      inlineTable bindings
    | some '"' => return .string (← stringValue '"')
    | some '\'' => return .string (← stringValue '\'')
    | _ => scalar

/-! ## Documents -/

/-- A header in one or two pairs of brackets. -/
def header : Reader Statement := do
  if ← Reader.optional ['[', '['] then
    let path ← key
    Reader.exactly [']', ']']
    return .arrayHeader path
  else
    Reader.char '['
    let path ← key
    Reader.char ']'
    return .header path

/-- One line with the statement on it, if it has one; nothing at the end of the text. -/
def line? : Reader (Option (List Statement)) := do
  if (← get).isEmpty then return none
  blanks
  let statements ← match ← Reader.peek with
    | none | some '#' | some '\n' | some '\r' => pure []
    | some '[' => do pure [← header]
    | some _ => do
      let (path, v) ← binding (value depthLimit)
      pure [.assign path v]
  lineEnd
  return some statements

def document : Reader (List Statement) := do
  let _ ← Reader.optional ['\ufeff']
  let lines ← Reader.many line?
  return lines.flatten

def parse? (s : String) : Option (List (String × Value)) :=
  (document.run? s.toList).bind build

end Phrasebook.Toml
