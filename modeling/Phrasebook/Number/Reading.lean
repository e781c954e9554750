import Phrasebook.Number.Decimal

/-!
Reading numbers from text.

`Number.read?` accepts an optional sign and then digits with an optional point and an
optional exponent, or one of the words `inf`, `infinity` and `nan` in any case. At least one
digit stands before or after the point. The result is the number nearest to what is written
(`Number.ofDecimal`).
-/

namespace Phrasebook.Number

/-- The number nearest to `± coefficient * 10 ^ exponent`. A value of `10 ^ 310` or more is
beyond every finite number and one below `10 ^ (-330)` is nearest to zero, so neither needs
the power of ten. -/
def ofDecimal (negative : Bool) (coefficient : Nat) (exponent : Int) : Number :=
  let size : Int := (Decimal.digits coefficient).length + exponent
  if coefficient = 0 ∨ size < -330 then .finite negative 0
  else if 310 < size then .infinite negative
  else if 0 ≤ exponent then ofRatio negative (coefficient * Nat.pow 10 exponent.toNat) 1
  else ofRatio negative coefficient (Nat.pow 10 (-exponent).toNat)

def digitsValue (cs : List Char) : Nat := Nat.ofDigitChars 10 cs 0

/-- A run of one or more digits, after an optional sign, to the end of the text. -/
def readInteger? (cs : List Char) : Option Int :=
  let (negative, ds) := match cs with
    | '-' :: r => (true, r)
    | '+' :: r => (false, r)
    | _ => (false, cs)
  if ds.isEmpty || !ds.all Char.isDigit then none
  else some (if negative then -(digitsValue ds : Int) else digitsValue ds)

/-- Nothing, or the letter `e` and an integer. -/
def readExponent? : List Char → Option Int
  | [] => some 0
  | c :: r => if c == 'e' || c == 'E' then readInteger? r else none

/-- Digits with an optional point and an optional exponent. -/
def readDecimal? (negative : Bool) (cs : List Char) : Option Number :=
  let whole := cs.takeWhile Char.isDigit
  let rest := cs.dropWhile Char.isDigit
  let (fraction, rest) := match rest with
    | '.' :: r => (r.takeWhile Char.isDigit, r.dropWhile Char.isDigit)
    | _ => ([], rest)
  if whole.isEmpty && fraction.isEmpty then none
  else (readExponent? rest).map fun e =>
    ofDecimal negative (digitsValue (whole ++ fraction)) (e - fraction.length)

/-- The words for values that have no digits. -/
def readWord? (negative : Bool) (cs : List Char) : Option Number :=
  let word := String.ofList (cs.map Char.toLower)
  if word = "nan" then some .nan
  else if word = "inf" ∨ word = "infinity" then some (.infinite negative)
  else none

def read? (s : String) : Option Number :=
  let (negative, cs) := match s.toList with
    | '-' :: r => (true, r)
    | '+' :: r => (false, r)
    | cs => (false, cs)
  (readDecimal? negative cs).or (readWord? negative cs)

theorem ofDecimal_zero (negative : Bool) (exponent : Int) :
    ofDecimal negative 0 exponent = .finite negative 0 := by
  simp [ofDecimal]

end Phrasebook.Number
