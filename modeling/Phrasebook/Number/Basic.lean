/-!
Numbers: the values of IEEE 754 binary64, held exactly.

A finite number is a sign and a natural number of units, one unit being `2 ^ (-1074)`, the
least positive value of the format. Both zeros are there, with magnitude zero; they are
different numbers that compare as equal.
-/

namespace Phrasebook

/-- A binary64 value. -/
inductive Number where
  | nan
  | infinite (negative : Bool)
  /-- The value `± magnitude * 2 ^ (-1074)`. -/
  | finite (negative : Bool) (magnitude : Nat)
  deriving DecidableEq, Inhabited

namespace Number

/-- The number of units in one. -/
def one : Nat := Nat.pow 2 1074

/-- The least magnitude that is too large for a finite number, in units. -/
def limit : Nat := Nat.pow 2 2098

def zero : Number := .finite false 0

/-- Whether two numbers are numerically equal: the zeros are, `nan` never is. -/
def equals : Number → Number → Bool
  | .infinite s, .infinite t => s == t
  | .finite s m, .finite t n => m == n && (s == t || m == 0)
  | _, _ => false

def isFinite : Number → Bool
  | .finite .. => true
  | _ => false

/-- The number without its fraction; the sign stays, also on a zero. -/
def trunc : Number → Number
  | .finite s m => .finite s (m / one * one)
  | x => x

/-- Whether a number is finite and has no fraction. -/
def isIntegral : Number → Bool
  | .finite _ m => m % one == 0
  | _ => false

/-- The integer part of a finite number. -/
def toInt? : Number → Option Int
  | .finite s m => some (if s then -(m / one : Nat) else (m / one : Nat))
  | _ => none

theorem one_pos : 0 < one := by
  unfold one
  generalize 1074 = n
  exact Nat.two_pow_pos n

theorem equals_self_iff (x : Number) : x.equals x = true ↔ x ≠ .nan := by
  cases x <;> simp [equals]

theorem trunc_trunc (x : Number) : x.trunc.trunc = x.trunc := by
  cases x with
  | finite s m =>
    simp only [trunc, Nat.mul_div_cancel _ one_pos]
  | _ => rfl

theorem isIntegral_trunc (s : Bool) (m : Nat) : (trunc (.finite s m)).isIntegral = true := by
  simp only [trunc, isIntegral, Nat.mul_mod_left, beq_self_eq_true]

end Number

end Phrasebook
