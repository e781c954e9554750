import Phrasebook.Json.Basic
import Phrasebook.Number.Scaling
import Phrasebook.Text.Reader

/-!
Reading JSON text.

`Json.parse?` accepts the texts of RFC 8259 whose numbers are in the range of finite numbers,
whose escapes denote characters, and whose arrays and objects are nested at most 127 deep.
A number is read from its leading digits and its power of ten (`Json.numberOf?`), which may miss
the nearest number by a little.
-/

namespace Phrasebook.Json

/-- The deepest nesting of arrays and objects. -/
def depthLimit : Nat := 127

def isBlank (c : Char) : Bool := c == ' ' || c == '\n' || c == '\t' || c == '\r'

def blanks : Reader Unit := do let _ ← Reader.takeWhile isBlank

/-! ## Strings -/

/-- Characters that stand for themselves in a string. -/
def isPlain (c : Char) : Bool := ' ' ≤ c && c != '"' && c != '\\'

def hexValue? (c : Char) : Option Nat :=
  if c.isDigit then some (c.toNat - '0'.toNat)
  else if 'a' ≤ c && c ≤ 'f' then some (c.toNat - 'a'.toNat + 10)
  else if 'A' ≤ c && c ≤ 'F' then some (c.toNat - 'A'.toNat + 10)
  else none

/-- Four hexadecimal digits: a unit of UTF-16. -/
def codeUnit : Reader Nat := do
  let a ← hexValue? (← Reader.next)
  let b ← hexValue? (← Reader.next)
  let c ← hexValue? (← Reader.next)
  let d ← hexValue? (← Reader.next)
  return ((a * 16 + b) * 16 + c) * 16 + d

/-- The character of one unit of UTF-16, or of a pair of surrogates. -/
def escapedUnits : Reader Char := do
  let unit ← codeUnit
  if unit < 0xd800 || 0xe000 ≤ unit then return Char.ofNat unit
  else if unit < 0xdc00 then
    Reader.exactly ['\\', 'u']
    let low ← codeUnit
    if 0xdc00 ≤ low && low < 0xe000 then
      return Char.ofNat (0x10000 + (unit - 0xd800) * 0x400 + (low - 0xdc00))
    else Reader.fail
  else Reader.fail

def escapedChar : Reader Char := do
  match ← Reader.next with
  | '"' => return '"'
  | '\\' => return '\\'
  | '/' => return '/'
  | 'b' => return '\x08'
  | 'f' => return '\x0c'
  | 'n' => return '\n'
  | 'r' => return '\r'
  | 't' => return '\t'
  | 'u' => escapedUnits
  | _ => Reader.fail

/-- Plain characters or one escape, unless the string ends. -/
def stringPiece? : Reader (Option (List Char)) := do
  let plain ← Reader.takeWhile isPlain
  if !plain.isEmpty then return some plain
  match ← Reader.peek with
  | some '\\' => do
    Reader.char '\\'
    return some [← escapedChar]
  | _ => return none

def stringText : Reader String := do
  Reader.char '"'
  let pieces ← Reader.many stringPiece?
  Reader.char '"'
  return String.ofList pieces.flatten

/-! ## Numbers -/

def someDigits : Reader (List Char) := do
  let ds ← Reader.takeWhile Char.isDigit
  if ds.isEmpty then Reader.fail
  return ds

def exponent : Reader Int := do
  let negative ← Reader.optional ['-']
  if !negative then let _ ← Reader.optional ['+']
  let n := Number.digitsValue (← someDigits)
  return if negative then -(n : Int) else n

/-- The first number that does not fit a word of 64 bits. -/
def wordLimit : Nat := Nat.pow 2 64

/-- A natural number with digits appended, for as long as it fits a word, and the digits that
are left. -/
def appendDigits (n : Nat) : List Char → Nat × List Char
  | [] => (n, [])
  | d :: ds =>
    if 10 * n + (d.toNat - '0'.toNat) < wordLimit then
      appendDigits (10 * n + (d.toNat - '0'.toNat)) ds
    else (n, d :: ds)

/-- The number of a text with these digits before and after its point and this exponent. The
leading digits that fit a word are its significand; further ones count for its size only. -/
def numberOf? (negative : Bool) (whole fraction : List Char) (e : Int) : Option Number :=
  let (n, wholeRest) := appendDigits 0 whole
  let (n, fractionRest) := appendDigits n fraction
  Number.scaled? negative n (e + wholeRest.length + fractionRest.length - fraction.length)

/-- A number, which has to be in the range of finite numbers. -/
def numeral : Reader Number := do
  let negative ← Reader.optional ['-']
  let whole ← someDigits
  if 1 < whole.length && whole.head? == some '0' then Reader.fail
  let fraction ← if ← Reader.optional ['.'] then someDigits else pure []
  let e ← if (← Reader.peek).any (fun c => c == 'e' || c == 'E') then
      let _ ← Reader.next
      exponent
    else pure 0
  numberOf? negative whole fraction e

/-! ## Values -/

def scalar : Reader Json := do
  match ← Reader.peek with
  | some 'n' => do Reader.exactly ['n', 'u', 'l', 'l']; return .null
  | some 't' => do Reader.exactly ['t', 'r', 'u', 'e']; return .bool true
  | some 'f' => do Reader.exactly ['f', 'a', 'l', 's', 'e']; return .bool false
  | some '"' => return .string (← stringText)
  | _ => return .number (← numeral)

/-- Items with commas between them, up to a closing character. -/
def separated {α : Type} (item : Reader α) (closing : Char) : Reader (List α) := do
  blanks
  if (← Reader.peek) = some closing then
    Reader.char closing
    return []
  let first ← item
  let others ← Reader.many do
    blanks
    if ← Reader.optional [','] then
      blanks
      return some (← item)
    else return none
  Reader.char closing
  return first :: others

def member (value : Reader Json) : Reader (String × Json) := do
  let name ← stringText
  blanks
  Reader.char ':'
  blanks
  return (name, ← value)

/-- A value with arrays and objects nested so deep at most. -/
def value : Nat → Reader Json
  | 0 => scalar
  | depth + 1 => do
    match ← Reader.peek with
    | some '[' => do
      Reader.char '['
      return .array (← separated (value depth) ']')
    | some '\x7b' => do
      Reader.char '\x7b'
      return .object (← separated (member (value depth)) '\x7d')
    | _ => scalar

def document : Reader Json := do
  blanks
  let v ← value depthLimit
  blanks
  return v

def parse? (s : String) : Option Json := document.run? s.toList

end Phrasebook.Json
