import Phrasebook.Number.Basic

/-!
Rounding a quotient to a number, to the nearest and a tie to the even neighbour.

`roundHalfEven` rounds a quotient to a natural number; it is at most half a unit away
(`two_mul_distance_roundHalfEven_le`). `Number.ofRatio` rounds a quotient to the nearest
number, on the grid whose `spacing` fits the quotient's size.
-/

namespace Phrasebook

/-- The natural number nearest to `n / d`; of two, the even one. -/
def roundHalfEven (n d : Nat) : Nat :=
  if 2 * (n % d) < d then n / d
  else if d < 2 * (n % d) then n / d + 1
  else if n / d % 2 = 0 then n / d
  else n / d + 1

/-- The rounded quotient is at most half a unit from the quotient. -/
theorem two_mul_distance_roundHalfEven_le (n : Nat) {d : Nat} (hd : 0 < d) :
    2 * (roundHalfEven n d * d) ≤ 2 * n + d ∧ 2 * n ≤ 2 * (roundHalfEven n d * d) + d := by
  have h := Nat.div_add_mod n d
  have hr := Nat.mod_lt n hd
  have hm : d * (n / d) = n / d * d := Nat.mul_comm ..
  unfold roundHalfEven
  split
  · omega
  · split
    · rw [Nat.add_mul]; omega
    · split
      · omega
      · rw [Nat.add_mul]; omega

/-- A whole quotient stays as it is. -/
theorem roundHalfEven_mul_self {d : Nat} (k : Nat) (h : 0 < d) :
    roundHalfEven (k * d) d = k := by
  simp [roundHalfEven, Nat.mul_div_cancel _ h, h]

namespace Number

/-- The distance between neighbouring magnitudes from `m` upward: a significand has at most
fifty-three binary digits. -/
def spacing (m : Nat) : Nat := Nat.pow 2 (m.log2 - 52)

/-- The magnitude nearest to `n / d` units. -/
def nearestMagnitude (n d : Nat) : Nat :=
  roundHalfEven n (d * spacing (n / d)) * spacing (n / d)

/-- The number nearest to `± n / d`; beyond the largest finite number, an infinity. -/
def ofRatio (negative : Bool) (n d : Nat) : Number :=
  let m := nearestMagnitude (n * one) d
  if m < limit then .finite negative m else .infinite negative

/-- The number nearest to a natural number. -/
def ofNat (n : Nat) : Number := ofRatio false n 1

end Number

end Phrasebook
