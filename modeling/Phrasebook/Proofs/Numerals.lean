import Mathlib.Algebra.Field.Rat
import Mathlib.Tactic.NormNum
import Phrasebook.Localizer
import Phrasebook.Number.Reading
import Phrasebook.Proofs.Scanning

/-!
Numerals, and the fractions of the numbers that messages show.

A `Numeral` is a text of digits, with a sign, a point and more digits if there is a fraction. Every
decimal is written as one (`Numeral.ofDecimal`), a text is written as one in one way at most
(`Numeral.text_injective`), and what it denotes is not changed by zeros at the end of the fraction,
put there or dropped. So the limits on a fraction change the number that is shown by no more than
the rounding (`Localizer.basic_numberText`).
-/

namespace Phrasebook

/-! ## Runs of digits -/

namespace Number

/-- Zeros in front do not count. -/
theorem digitsValue_zeros_append (n : Nat) (cs : List Char) :
    digitsValue (List.replicate n '0' ++ cs) = digitsValue cs := by
  simp [digitsValue, Nat.ofDigitChars_append, Nat.ofDigitChars_replicate_zero]

theorem digitsValue_digits (n : Nat) : digitsValue (Decimal.digits n) = n :=
  Nat.ofDigitChars_ten_toDigits

end Number

namespace Decimal

theorem isDigit_of_mem_digits {n : Nat} {c : Char} (h : c ∈ digits n) : c.isDigit = true :=
  Nat.isDigit_of_mem_toDigits (by decide) (by decide) h

theorem length_digits_le_iff {n width : Nat} (h : 0 < width) :
    (digits n).length ≤ width ↔ n < 10 ^ width :=
  Nat.length_toDigits_le_iff (by decide) h

/-- The last digit is the remainder modulo ten. -/
theorem getLast?_digits (n : Nat) : (digits n).getLast? = some (n % 10).digitChar := by
  unfold digits
  by_cases h : n < 10
  · rw [Nat.toDigits_of_lt_base h, Nat.mod_eq_of_lt h]
    rfl
  · rw [Nat.toDigits_of_base_le (by decide) (Nat.not_lt.mp h), List.getLast?_concat]

theorem digitChar_mod_eq_zero {n : Nat} (h : (n % 10).digitChar = '0') : n % 10 = 0 := by
  have hdigits : ∀ d < 10, d.digitChar = '0' → d = 0 := by decide
  exact hdigits _ (Nat.mod_lt n (by decide)) h

/-- To multiply by a power of ten is to write zeros. -/
theorem digits_mul_pow {n : Nat} (h : 0 < n) (k : Nat) :
    digits (n * 10 ^ k) = digits n ++ List.replicate k '0' := by
  induction k with
  | zero => simp
  | succ k ih =>
    have hpos : 0 < n * 10 ^ k := Nat.mul_pos h (Nat.pow_pos (by decide))
    have hstep : digits (n * 10 ^ k * 10) = digits (n * 10 ^ k) ++ ['0'] := by
      unfold digits
      rw [Nat.toDigits_of_base_le (by decide) (by omega), Nat.mul_div_cancel _ (by decide),
        Nat.mul_mod_left]
      rfl
    rw [Nat.pow_succ, ← Nat.mul_assoc, hstep, ih, List.replicate_succ', List.append_assoc]

/-! ## Decimals -/

/-- The number that a decimal stands for. -/
def value (d : Decimal) : ℚ := (if d.negative then -1 else 1) * d.coefficient / 10 ^ d.places

theorem digitsValue_paddedDigits (d : Decimal) :
    Number.digitsValue d.paddedDigits = d.coefficient := by
  rw [paddedDigits, Number.digitsValue_zeros_append, Number.digitsValue_digits]

theorem isDigit_of_mem_paddedDigits {d : Decimal} {c : Char} (h : c ∈ d.paddedDigits) :
    c.isDigit = true := by
  rcases List.mem_append.mp h with h | h
  · rw [List.eq_of_mem_replicate h]
    rfl
  · exact isDigit_of_mem_digits h

/-- A fraction ends in the last digit of the coefficient. -/
theorem getLast?_fractionDigits {d : Decimal} (h : d.places ≠ 0) :
    d.fractionDigits.getLast? = some (d.coefficient % 10).digitChar := by
  have hlength := d.length_paddedDigits
  have hpadded : d.paddedDigits.getLast? = some (d.coefficient % 10).digitChar := by
    rw [paddedDigits, List.getLast?_append, getLast?_digits]
    rfl
  rw [fractionDigits, List.getLast?_drop, if_neg (by omega), hpadded]

/-- Decimals of one sign stand for the same number if they do so over a common power of ten. -/
theorem value_eq_of_scaled {d e : Decimal} (hsign : d.negative = e.negative)
    (h : d.coefficient * 10 ^ e.places = e.coefficient * 10 ^ d.places) : d.value = e.value := by
  have hscaled : (d.coefficient : ℚ) * 10 ^ e.places = e.coefficient * 10 ^ d.places := by
    exact_mod_cast h
  have hpow : ∀ n : Nat, (10 : ℚ) ^ n ≠ 0 := fun n => pow_ne_zero n (by norm_num)
  rw [value, value, hsign, div_eq_div_iff (hpow _) (hpow _), mul_assoc, mul_assoc, hscaled]

/-! ## Zeros at the end of a fraction -/

theorem value_padTo (d : Decimal) (places : Nat) : (d.padTo places).value = d.value := by
  refine value_eq_of_scaled rfl ?_
  have hplaces : max d.places places = (places - d.places) + d.places := by omega
  show d.coefficient * 10 ^ (places - d.places) * 10 ^ d.places =
    d.coefficient * 10 ^ max d.places places
  rw [hplaces, Nat.pow_add, Nat.mul_assoc]

/-- A decimal that is padded gets zeros behind its digits. -/
theorem paddedDigits_padTo (d : Decimal) (places : Nat) :
    (d.padTo places).paddedDigits = d.paddedDigits ++ List.replicate (places - d.places) '0' := by
  show List.replicate (max d.places places + 1 -
      (digits (d.coefficient * 10 ^ (places - d.places))).length) '0' ++
    digits (d.coefficient * 10 ^ (places - d.places)) = _
  rcases Nat.eq_zero_or_pos d.coefficient with hzero | hpos
  · have hdigits : digits 0 = List.replicate 1 '0' := rfl
    rw [paddedDigits, hzero, Nat.zero_mul, hdigits, List.length_replicate,
      List.replicate_append_replicate, List.replicate_append_replicate,
      List.replicate_append_replicate]
    congr 1
    omega
  · rw [digits_mul_pow hpos, paddedDigits, List.length_append, List.length_replicate,
      ← List.append_assoc]
    congr 3
    omega

theorem fractionDigits_padTo (d : Decimal) (places : Nat) :
    (d.padTo places).fractionDigits =
      d.fractionDigits ++ List.replicate (places - d.places) '0' := by
  have hlength := d.length_paddedDigits
  have hplaces : (d.padTo places).places = d.places + (places - d.places) :=
    show max d.places places = _ by omega
  have hcut : d.paddedDigits.length + (places - d.places) - (d.places + (places - d.places)) =
      d.paddedDigits.length - d.places := by omega
  rw [fractionDigits, paddedDigits_padTo, hplaces, List.length_append, List.length_replicate, hcut,
    List.drop_append_of_le_length (Nat.sub_le _ _)]
  rfl

theorem value_dropZeros (d : Decimal) (n : Nat) : (d.dropZeros n).value = d.value := by
  induction n generalizing d with
  | zero => rfl
  | succ n ih =>
    rw [dropZeros]
    split
    · rfl
    · next h =>
      obtain ⟨hplaces, hzero⟩ : d.places ≠ 0 ∧ d.coefficient % 10 = 0 := by simpa using h
      obtain ⟨places, hplaces⟩ := Nat.exists_eq_succ_of_ne_zero hplaces
      rw [ih]
      refine value_eq_of_scaled rfl ?_
      show d.coefficient / 10 * 10 ^ d.places = d.coefficient * 10 ^ (d.places - 1)
      rw [hplaces, Nat.pow_succ, Nat.mul_comm (10 ^ places), ← Nat.mul_assoc,
        Nat.div_mul_cancel (Nat.dvd_of_mod_eq_zero hzero)]
      rfl

/-- Zeros are dropped until none is left or enough are dropped. -/
theorem dropZeros_spec (d : Decimal) (n : Nat) :
    (d.dropZeros n).places ≤ d.places ∧ d.places ≤ (d.dropZeros n).places + n ∧
      ((d.dropZeros n).places = 0 ∨ (d.dropZeros n).coefficient % 10 ≠ 0 ∨
        (d.dropZeros n).places + n = d.places) := by
  induction n generalizing d with
  | zero => simp [dropZeros]
  | succ n ih =>
    rw [dropZeros]
    split
    · next h => omega
    · next h =>
      have hrest := ih { d with coefficient := d.coefficient / 10, places := d.places - 1 }
      dsimp only at hrest
      omega

theorem value_trimTo (d : Decimal) (places : Nat) : (d.trimTo places).value = d.value :=
  value_dropZeros d _

/-- A decimal that is trimmed keeps at least the places asked for, and ends in a zero only if it
has no more than these. -/
theorem trimTo_spec {d : Decimal} {places : Nat} (h : places ≤ d.places) :
    let trimmed := d.trimTo places
    places ≤ trimmed.places ∧ trimmed.places ≤ d.places ∧
      (trimmed.fractionDigits.getLast? = some '0' → trimmed.places = places) := by
  obtain ⟨hle, hdropped, hlast⟩ := dropZeros_spec d (d.places - places)
  rw [trimTo]
  refine ⟨by omega, hle, fun hzero => ?_⟩
  by_cases hnone : (d.dropZeros (d.places - places)).places = 0
  · omega
  · rw [getLast?_fractionDigits hnone] at hzero
    have hdigit := digitChar_mod_eq_zero (Option.some.inj hzero)
    omega

end Decimal

/-! ## Numerals -/

/-- A number written with a sign, digits before the point and digits after it. -/
@[ext] structure Numeral where
  negative : Bool
  whole : List Char
  fraction : List Char
  whole_ne_nil : whole ≠ []
  isDigit_of_mem : ∀ c ∈ whole ++ fraction, c.isDigit = true

namespace Numeral

/-- A point and the digits of the fraction, if there is one. -/
def fractionChars (x : Numeral) : List Char :=
  if x.fraction = [] then [] else '.' :: x.fraction

/-- The characters after the sign. -/
def unsignedChars (x : Numeral) : List Char := x.whole ++ x.fractionChars

/-- A minus sign if negative, the whole digits and, if there is one, the fraction. -/
def text (x : Numeral) : String :=
  String.ofList ((if x.negative then ['-'] else []) ++ x.unsignedChars)

/-- The number that a numeral denotes. -/
def value (x : Numeral) : ℚ :=
  (if x.negative then -1 else 1) * Number.digitsValue (x.whole ++ x.fraction) /
    10 ^ x.fraction.length

/-- The numeral that a decimal is written as. -/
def ofDecimal (d : Decimal) : Numeral where
  negative := d.negative
  whole := d.wholeDigits
  fraction := d.fractionDigits
  whole_ne_nil := by
    have hlength := d.length_paddedDigits
    rw [Decimal.wholeDigits, ← List.length_pos_iff, List.length_take]
    omega
  isDigit_of_mem c hc :=
    Decimal.isDigit_of_mem_paddedDigits (d.wholeDigits_append_fractionDigits ▸ hc)

@[simp] theorem length_fraction_ofDecimal (d : Decimal) :
    (ofDecimal d).fraction.length = d.places := d.length_fractionDigits

theorem text_ofDecimal (d : Decimal) : (ofDecimal d).text = d.text := by
  have hfraction : (ofDecimal d).fractionChars =
      if d.places = 0 then [] else '.' :: d.fractionDigits := by
    have hnone : (ofDecimal d).fraction = [] ↔ d.places = 0 := by
      rw [← List.length_eq_zero_iff, length_fraction_ofDecimal]
    simp only [fractionChars, hnone]
    rfl
  rw [text, unsignedChars, hfraction, ← List.append_assoc]
  rfl

theorem value_ofDecimal (d : Decimal) : (ofDecimal d).value = d.value := by
  rw [value, length_fraction_ofDecimal]
  show _ * (Number.digitsValue (d.wholeDigits ++ d.fractionDigits) : ℚ) / _ = _
  rw [d.wholeDigits_append_fractionDigits, d.digitsValue_paddedDigits]
  rfl

/-! ## The numeral of a text -/

theorem fractionChars_eq (x : Numeral) :
    (x.fraction = [] ∧ x.fractionChars = []) ∨ x.fractionChars = '.' :: x.fraction := by
  unfold fractionChars
  split
  · next h => exact .inl ⟨h, rfl⟩
  · exact .inr rfl

theorem isDigit_of_mem_whole {x : Numeral} : ∀ c ∈ x.whole, c.isDigit = true := fun c hc =>
  x.isDigit_of_mem c (List.mem_append_left _ hc)

/-- There is a point only before a fraction. -/
theorem point_not_mem_text {x : Numeral} (h : x.fraction = []) : '.' ∉ x.text.toList := by
  have hpoint : '.' ∉ x.whole := fun hmem => absurd (isDigit_of_mem_whole _ hmem) (by decide)
  cases hsign : x.negative <;> simp [text, unsignedChars, fractionChars, h, hsign, hpoint]

theorem tail_fractionChars (x : Numeral) : x.fractionChars.tail = x.fraction := by
  rcases x.fractionChars_eq with ⟨hnone, h⟩ | h
  · rw [h, hnone]
    rfl
  · rw [h, List.tail_cons]

theorem stops_fractionChars (x : Numeral) : Stops Char.isDigit x.fractionChars := by
  rcases x.fractionChars_eq with ⟨-, h⟩ | h
  · rw [h]
    exact stops_nil _
  · rw [h]
    exact stops_cons rfl

theorem head?_unsignedChars_ne (x : Numeral) : x.unsignedChars.head? ≠ some '-' := by
  intro h
  obtain ⟨c, cs, hwhole⟩ := List.exists_cons_of_ne_nil x.whole_ne_nil
  rw [unsignedChars, hwhole] at h
  cases h
  exact absurd (isDigit_of_mem_whole '-' (hwhole ▸ List.mem_cons_self)) (by decide)

/-- A text is the text of one numeral at most. -/
theorem text_injective : Function.Injective text := by
  intro x y h
  have hchars := String.ofList_injective h
  obtain ⟨hsign, hunsigned⟩ : x.negative = y.negative ∧ x.unsignedChars = y.unsignedChars := by
    cases hx : x.negative <;> cases hy : y.negative <;> simp only [hx, hy] at hchars
    · exact ⟨rfl, hchars⟩
    · exact absurd (congrArg List.head? hchars) x.head?_unsignedChars_ne
    · exact absurd (congrArg List.head? hchars).symm y.head?_unsignedChars_ne
    · exact ⟨rfl, List.tail_eq_of_cons_eq hchars⟩
  obtain ⟨hwhole, hrest⟩ := takeWhile_of_stops x.isDigit_of_mem_whole x.stops_fractionChars
  obtain ⟨hwhole', hrest'⟩ := takeWhile_of_stops y.isDigit_of_mem_whole y.stops_fractionChars
  have hsame : x.whole = y.whole := by
    rw [← hwhole, ← hwhole']
    exact congrArg _ hunsigned
  have hfraction : x.fraction = y.fraction := by
    rw [← x.tail_fractionChars, ← y.tail_fractionChars, ← hrest, ← hrest']
    exact congrArg (fun cs => (cs.dropWhile Char.isDigit).tail) hunsigned
  exact Numeral.ext hsign hsame hfraction

end Numeral

/-! ## Limits on the fraction -/

/-- With a maximum the rounded number is trimmed; a zero that has no fraction left loses its sign,
which changes neither the number nor the digits. -/
theorem Number.limited_of_maximum (limits : FractionLimits) {maximum : Nat}
    (h : limits.maximum = some maximum) (negative : Bool) (m : Nat) :
    let minimum := limits.minimum.getD 0
    let trimmed := (fixed negative m (max maximum minimum)).trimTo minimum
    (limited limits negative m).value = trimmed.value ∧
      (limited limits negative m).fractionDigits = trimmed.fractionDigits := by
  intro minimum trimmed
  have hlimited : limited limits negative m =
      if trimmed.coefficient = 0 ∧ trimmed.places = 0 then { trimmed with negative := false }
      else trimmed := by
    simp only [limited, h]
    rfl
  rw [hlimited]
  split
  · next hzero =>
    refine ⟨?_, rfl⟩
    rw [Decimal.value, Decimal.value, hzero.1, Nat.cast_zero, mul_zero, mul_zero]
  · exact ⟨rfl, rfl⟩

/-- The fraction of a number that is shown in plain digits. With a maximum, which counts for at
least the minimum, the text denotes the number rounded to so many places, and has no zero at the
end of the fraction beyond the minimum. Without one it denotes the shortest decimal of the number,
and has the digits of its fraction, followed by zeros up to the minimum. -/
theorem Localizer.basic_numberText (locale : String) (limits : FractionLimits) (negative : Bool)
    (m : Nat) :
    let minimum := limits.minimum.getD 0
    ∃ x y : Numeral, basic.numberText locale (.finite negative m) limits = x.text ∧
      x.value = y.value ∧ (x.fraction = [] → '.' ∉ x.text.toList) ∧
      match limits.maximum with
      | some maximum =>
        (Number.fixed negative m (max maximum minimum)).text = y.text ∧
          y.fraction.length = max maximum minimum ∧
          minimum ≤ x.fraction.length ∧ x.fraction.length ≤ max maximum minimum ∧
          (x.fraction.getLast? = some '0' → x.fraction.length = minimum)
      | none =>
        (Number.finite negative m).display = y.text ∧ y.fraction <+: x.fraction ∧
          x.fraction.length = max minimum y.fraction.length := by
  intro minimum
  have htext : basic.numberText locale (.finite negative m) limits =
      (Numeral.ofDecimal (Number.limited limits negative m)).text :=
    (Numeral.text_ofDecimal _).symm
  cases hmaximum : limits.maximum with
  | some maximum =>
    let rounded := Number.fixed negative m (max maximum minimum)
    obtain ⟨hvalue, hfraction⟩ := Number.limited_of_maximum limits hmaximum negative m
    have hle : minimum ≤ rounded.places := Nat.le_max_right _ _
    obtain ⟨hmin, hmax, hzero⟩ := Decimal.trimTo_spec hle
    have hlength : (Numeral.ofDecimal (Number.limited limits negative m)).fraction.length =
        (rounded.trimTo minimum).places :=
      (congrArg List.length hfraction).trans (Decimal.length_fractionDigits _)
    refine ⟨_, .ofDecimal rounded, htext, ?_, Numeral.point_not_mem_text,
      (Numeral.text_ofDecimal rounded).symm, Numeral.length_fraction_ofDecimal rounded, ?_⟩
    · rw [Numeral.value_ofDecimal, Numeral.value_ofDecimal, hvalue, Decimal.value_trimTo]
    · rw [hlength]
      exact ⟨hmin, hmax, fun hlast => hzero (hfraction ▸ hlast)⟩
  | none =>
    have hlimited : Number.limited limits negative m = (Number.shown negative m).padTo minimum := by
      rw [Number.limited, hmaximum]
    refine ⟨_, .ofDecimal (Number.shown negative m), htext, ?_, Numeral.point_not_mem_text,
      (Numeral.text_ofDecimal _).symm, ?_, ?_⟩
    · rw [Numeral.value_ofDecimal, Numeral.value_ofDecimal, hlimited, Decimal.value_padTo]
    · show (Number.shown negative m).fractionDigits <+:
        (Number.limited limits negative m).fractionDigits
      rw [hlimited, Decimal.fractionDigits_padTo]
      exact List.prefix_append _ _
    · rw [Numeral.length_fraction_ofDecimal, Numeral.length_fraction_ofDecimal, hlimited]
      exact Nat.max_comm _ _

end Phrasebook
