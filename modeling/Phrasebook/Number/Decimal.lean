import Phrasebook.Number.Rounding

/-!
Decimals: the texts of numbers, by significant digits or by places.

`Decimal` is a sign, a coefficient and a number of places after the point. `shortest` gives
the fewest digits that read back to a number, `fixed` its value rounded to given places.
`Decimal.text` writes either without an exponent; `Number.display` is how a number shows
inside a message.
-/

namespace Phrasebook

/-- The value `± coefficient / 10 ^ places`. -/
structure Decimal where
  negative : Bool
  coefficient : Nat
  places : Nat
  deriving DecidableEq

namespace Decimal

/-- The decimal digits of a natural number, the leading one first. -/
def digits (n : Nat) : List Char := Nat.toDigits 10 n

/-- Digits of the coefficient, with zeros in front so that one stands before the point. -/
def paddedDigits (d : Decimal) : List Char :=
  List.replicate (d.places + 1 - (digits d.coefficient).length) '0' ++ digits d.coefficient

def wholeDigits (d : Decimal) : List Char :=
  d.paddedDigits.take (d.paddedDigits.length - d.places)

def fractionDigits (d : Decimal) : List Char :=
  d.paddedDigits.drop (d.paddedDigits.length - d.places)

/-- A minus sign if negative, the whole digits and, if there are places, a point and the
fraction digits. -/
def chars (d : Decimal) : List Char :=
  (if d.negative then ['-'] else []) ++ d.wholeDigits ++
    (if d.places = 0 then [] else '.' :: d.fractionDigits)

def text (d : Decimal) : String := String.ofList d.chars

/-- The same value with at least so many places. -/
def padTo (d : Decimal) (places : Nat) : Decimal :=
  { d with
    coefficient := d.coefficient * Nat.pow 10 (places - d.places)
    places := max d.places places }

/-- Drops zeros at the end of the fraction, `n` of them at most. -/
def dropZeros (d : Decimal) : Nat → Decimal
  | 0 => d
  | n + 1 =>
    if d.places = 0 ∨ d.coefficient % 10 ≠ 0 then d
    else dropZeros { d with coefficient := d.coefficient / 10, places := d.places - 1 } n

/-- The same value without zeros at the end of the fraction, but at least so many places. -/
def trimTo (d : Decimal) (places : Nat) : Decimal := d.dropZeros (d.places - places)

theorem length_paddedDigits (d : Decimal) : d.places < d.paddedDigits.length := by
  simp only [paddedDigits, List.length_append, List.length_replicate]
  omega

theorem length_fractionDigits (d : Decimal) : d.fractionDigits.length = d.places := by
  have := d.length_paddedDigits
  simp only [fractionDigits, List.length_drop]
  omega

theorem wholeDigits_append_fractionDigits (d : Decimal) :
    d.wholeDigits ++ d.fractionDigits = d.paddedDigits := List.take_append_drop ..

end Decimal

/-- What becomes of a value half way between two decimals. -/
inductive Tie where
  | toEven
  | away
  deriving DecidableEq

namespace Number

/-- A finite number's value is a whole number of `10 ^ (-1074)`; `grain` of them make a
unit. -/
def grain : Nat := Nat.pow 5 1074

/-- The distance to the next smaller magnitude, doubled and in units: half as far below a
power of two as above it. -/
def spacingBelow (m : Nat) : Nat :=
  if m = Nat.pow 2 m.log2 ∧ 1 < spacing m then spacing m else 2 * spacing m

/-- Whether `x` grains read back to magnitude `m`: the ends of the interval of such values do
if the significand is even. -/
def readsBack (m x : Nat) : Bool :=
  let low := (4 * m - spacingBelow m) * grain
  let high := (4 * m + 2 * spacing m) * grain
  if m / spacing m % 2 = 0 then low ≤ 4 * x && 4 * x ≤ high
  else low < 4 * x && 4 * x < high

/-- The multiple of `10 ^ j` grains nearest to magnitude `m`, of those that read back to
it. -/
def onGrid (tie : Tie) (m j : Nat) : Option Nat :=
  let step := Nat.pow 10 j
  let k := m * grain / step
  let rest := m * grain % step
  let takesUpper := step < 2 * rest || (step == 2 * rest && (tie == .away || k % 2 == 1))
  match readsBack m (k * step), readsBack m ((k + 1) * step) with
  | true, true => some (if takesUpper then k + 1 else k)
  | true, false => some k
  | false, true => some (k + 1)
  | false, false => none

/-- The coarsest decimal grid, from `10 ^ j` grains down, with a point that reads back to
magnitude `m`, and that point. -/
def shortestFrom (tie : Tie) (m : Nat) : Nat → Nat × Nat
  | 0 => (m * grain, 0)
  | j + 1 =>
    match onGrid tie m (j + 1) with
    | some k => (k, j + 1)
    | none => shortestFrom tie m j

/-- The fewest digits that read back to magnitude `m`, and the power of ten of grains that
they count. No grid coarser than the first one beyond `m` has a point that reads back. -/
def shortestDigits (tie : Tie) (m : Nat) : Nat × Nat :=
  shortestFrom tie m (Decimal.digits (m * grain)).length

def shortest (tie : Tie) (negative : Bool) (m : Nat) : Decimal :=
  if m = 0 then ⟨negative, 0, 0⟩
  else
    let (k, j) := shortestDigits tie m
    ⟨negative, k * Nat.pow 10 (j - 1074), 1074 - j⟩

/-- A finite number rounded to so many places, a tie to the even neighbour. -/
def fixed (negative : Bool) (m places : Nat) : Decimal :=
  ⟨negative, roundHalfEven (m * Nat.pow 10 places) one, places⟩

/-- The decimal that shows a finite number: no sign on a zero, and a tie between two
shortest decimals goes away from zero. -/
def shown (negative : Bool) (m : Nat) : Decimal :=
  shortest .away (negative && m != 0) m

/-- How a number shows in a message: never with an exponent. -/
def display : Number → String
  | .nan => "NaN"
  | .infinite false => "Infinity"
  | .infinite true => "-Infinity"
  | .finite s m => (shown s m).text

end Number

end Phrasebook
