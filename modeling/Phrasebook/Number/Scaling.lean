import Phrasebook.Number.Rounding

/-!
Magnitudes scaled by powers of ten, in the arithmetic of numbers.

A power of ten is itself rounded to a number, and the product or the quotient is rounded after
that. Such a result may miss the number nearest to the exact value, which `Number.ofDecimal`
gives; it is what the readers of JSON give for the numbers in a text.
-/

namespace Phrasebook.Number

/-- The product of two magnitudes, rounded. -/
def product (m k : Nat) : Nat := nearestMagnitude (m * k) one

/-- The quotient of two magnitudes, rounded. -/
def quotient (m k : Nat) : Nat := nearestMagnitude (m * one) k

/-- The magnitude nearest to a power of ten. -/
def powerOfTen (n : Nat) : Nat := nearestMagnitude (Nat.pow 10 n * one) 1

/-- The exponent of the largest power of ten that is in the range of finite numbers. -/
def largestPower : Nat := 308

/-- A magnitude divided by a power of ten. Beyond the largest power there are several
divisions, each rounded. -/
def overPowerOfTen (m n : Nat) : Nat :=
  if n ≤ largestPower then quotient m (powerOfTen n)
  else if m = 0 then 0
  else overPowerOfTen (quotient m (powerOfTen largestPower)) (n - largestPower)
termination_by n
decreasing_by
  simp only [largestPower] at *
  omega

/-- The number `± significand * 10 ^ exponent`, the significand, the power and the result each
rounded; nothing if the result or the power is beyond the finite numbers. -/
def scaled? (negative : Bool) (significand : Nat) (exponent : Int) : Option Number :=
  let m := nearestMagnitude (significand * one) 1
  if exponent < 0 then some (.finite negative (overPowerOfTen m (-exponent).toNat))
  else if significand = 0 then some (.finite negative 0)
  else if largestPower < exponent then none
  else
    let r := product m (powerOfTen exponent.toNat)
    if r < limit then some (.finite negative r) else none

theorem nearestMagnitude_zero (d : Nat) : nearestMagnitude 0 d = 0 := by
  cases d <;> simp [nearestMagnitude, roundHalfEven, spacing]

theorem overPowerOfTen_zero (n : Nat) : overPowerOfTen 0 n = 0 := by
  unfold overPowerOfTen
  split
  · rw [quotient, Nat.zero_mul, nearestMagnitude_zero]
  · rw [if_pos rfl]

/-- A significand of zero gives a zero, whatever the exponent. -/
theorem scaled?_zero (negative : Bool) (exponent : Int) :
    scaled? negative 0 exponent = some (.finite negative 0) := by
  simp only [scaled?, Nat.zero_mul, nearestMagnitude_zero, overPowerOfTen_zero, if_true]
  split <;> rfl

end Phrasebook.Number
