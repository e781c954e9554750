import Mathlib.Algebra.GroupWithZero.Nat
import Phrasebook.Calendar
import Phrasebook.Proofs.Readers

/-!
Dates that the calendar has.

A date that is counted from a number of days, read from a text or moved by an offset has a month
of the year and a day of that month, and an instant has a minute of the day, a second of the minute
and a nanosecond of the second (`Instant.valid_ofMillis?`, `Instant.valid_read?`).
-/

namespace Phrasebook

namespace Date

/-- The month is one of the year, and the day one of the month. -/
structure Valid (d : Date) : Prop where
  month_pos : 1 ≤ d.month
  month_le : d.month ≤ 12
  day_pos : 1 ≤ d.day
  day_le : d.day ≤ monthLength d.year d.month

theorem monthLength_le (year : Int) (month : Nat) : monthLength year month ≤ 31 := by
  unfold monthLength
  split
  · split <;> decide
  · split <;> decide

/-! ## Years -/

/-- The number of days in a year. -/
def yearLength (year : Int) : Nat := if isLeapYear year then 366 else 365

theorem daysBeforeYear_succ (year : Int) :
    daysBeforeYear (year + 1) = daysBeforeYear year + yearLength year := by
  unfold yearLength daysBeforeYear
  cases hleap : isLeapYear year with
  | false =>
    simp only [isLeapYear, Bool.and_eq_false_iff, Bool.or_eq_false_iff, beq_eq_false_iff_ne,
      bne_eq_false_iff_eq] at hleap
    simp only [Bool.false_eq_true, if_false]
    omega
  | true =>
    simp only [isLeapYear, Bool.and_eq_true, Bool.or_eq_true, beq_iff_eq, bne_iff_ne] at hleap
    simp only [if_true]
    omega

/-- The months of a year make up the year. -/
theorem sum_monthLength (year : Int) :
    ((List.range' 1 12).map (monthLength year)).sum = yearLength year := by
  unfold yearLength
  cases hleap : isLeapYear year <;> simp [List.range', monthLength, hleap]

/-- The days before the first of some months fall into these months. -/
theorem inMonths_spec (year : Int) {months : List Nat} {rest : Nat}
    (h : rest < (months.map (monthLength year)).sum) :
    (inMonths year months rest).1 ∈ months ∧ 1 ≤ (inMonths year months rest).2 ∧
      (inMonths year months rest).2 ≤ monthLength year (inMonths year months rest).1 := by
  induction months generalizing rest with
  | nil => cases h
  | cons m months ih =>
    rw [inMonths]
    split
    · next hlt => exact ⟨List.mem_cons_self, Nat.succ_pos _, hlt⟩
    · next hge =>
      rw [List.map_cons, List.sum_cons] at h
      obtain ⟨hmem, hday⟩ := @ih (rest - monthLength year m) (by omega)
      exact ⟨List.mem_cons_of_mem _ hmem, hday⟩

/-! ## Counted days -/

/-- A day of a year, counted from the first day of year 1. -/
theorem valid_inMonths {year n : Int} (hlow : daysBeforeYear year ≤ n)
    (hhigh : n < daysBeforeYear (year + 1)) :
    let inYear := inMonths year (List.range' 1 12) (n - daysBeforeYear year).toNat
    Valid ⟨year, inYear.1, inYear.2⟩ := by
  have hrest : (n - daysBeforeYear year).toNat <
      ((List.range' 1 12).map (monthLength year)).sum := by
    rw [sum_monthLength]
    rw [daysBeforeYear_succ] at hhigh
    omega
  obtain ⟨hmonth, hpos, hle⟩ := inMonths_spec year hrest
  rw [List.mem_range'_1] at hmonth
  exact ⟨hmonth.1, Nat.le_of_lt_succ hmonth.2, hpos, hle⟩

/-- A year is 146097/400 days on average, which gives the year of a day or the one before it. -/
theorem guess_bounds (n : Int) :
    daysBeforeYear (400 * n / 146097 + 1) ≤ n ∧
      n < daysBeforeYear (400 * n / 146097 + 1 + 1 + 1) := by
  unfold daysBeforeYear
  omega

theorem valid_ofDays (days : Int) : (ofDays days).Valid := by
  obtain ⟨hlow, hhigh⟩ := guess_bounds (days + daysBeforeYear 1970)
  unfold ofDays
  dsimp only
  rw [if_neg (Int.not_lt.mpr hlow)]
  split
  · next hnext => exact valid_inMonths hnext hhigh
  · next hnext => exact valid_inMonths hlow (Int.not_le.mp hnext)

theorem Valid.addDays {d : Date} (h : d.Valid) (n : Int) : (d.addDays n).Valid := by
  unfold Date.addDays
  split
  · exact h
  · exact valid_ofDays _

theorem valid_of_mk? {year : Int} {month day : Nat} {d : Date} (h : mk? year month day = some d) :
    d.Valid := by
  unfold mk? at h
  split at h
  · next hd =>
    cases h
    simp only [Bool.and_eq_true, decide_eq_true_eq] at hd
    obtain ⟨⟨⟨⟨-, hmonth⟩, hmonth'⟩, hday⟩, hday'⟩ := hd
    exact ⟨hmonth, hmonth', hday, hday'⟩
  · cases h

/-- A date of a covered year can be made of its parts. -/
theorem Valid.mk?_eq {d : Date} (h : d.Valid) (hyear : isCoveredYear d.year = true) :
    mk? d.year d.month d.day = some d := by
  simp [mk?, hyear, h.month_pos, h.month_le, h.day_pos, h.day_le]

end Date

/-! ## Instants -/

namespace Number

theorem ofDigitChars_lt {cs : List Char} (h : ∀ c ∈ cs, c.isDigit = true) (n : Nat) :
    Nat.ofDigitChars 10 cs n < (n + 1) * 10 ^ cs.length := by
  induction cs generalizing n with
  | nil => simp
  | cons c cs ih =>
    obtain ⟨hc, hcs⟩ := List.forall_mem_cons.mp h
    have hdigit : c.toNat - '0'.toNat ≤ 9 := by
      simp only [Char.isDigit, Bool.and_eq_true, decide_eq_true_eq, UInt32.le_iff_toNat_le] at hc
      have hhigh : c.toNat ≤ 57 := hc.2
      have hzero : '0'.toNat = 48 := rfl
      omega
    rw [Nat.ofDigitChars_cons, List.length_cons, Nat.pow_succ']
    calc Nat.ofDigitChars 10 cs (10 * n + (c.toNat - '0'.toNat))
        < (10 * n + (c.toNat - '0'.toNat) + 1) * 10 ^ cs.length := ih hcs _
      _ ≤ (n + 1) * 10 * 10 ^ cs.length := Nat.mul_le_mul_right _ (by omega)
      _ = (n + 1) * (10 * 10 ^ cs.length) := Nat.mul_assoc ..

theorem digitsValue_lt {cs : List Char} (h : ∀ c ∈ cs, c.isDigit = true) :
    digitsValue cs < 10 ^ cs.length := by
  rw [digitsValue]
  simpa using ofDigitChars_lt h 0

end Number

namespace Instant

/-- The minute is one of the day, the second one of the minute or the leap second, and the
nanosecond one of the second. -/
structure Valid (t : Instant) : Prop where
  date : t.date.Valid
  minute_lt : t.minute < 1440
  second_le : t.second ≤ 60
  nanosecond_lt : t.nanosecond < 10 ^ 9

variable {t : Instant}

theorem Valid.addMinutes (h : t.Valid) (n : Int) : (t.addMinutes n).Valid := by
  refine ⟨h.date.addDays _, ?_, h.second_le, h.nanosecond_lt⟩
  unfold Instant.addMinutes
  dsimp only
  omega

theorem valid_ofMillis? {millis : Int} (h : ofMillis? millis = some t) : t.Valid := by
  unfold ofMillis? at h
  dsimp only at h
  split at h
  · cases h
    refine ⟨Date.valid_ofDays _, ?_, ?_, ?_⟩ <;> dsimp only <;> omega
  · cases h

section

open Reader

theorem yields_fraction : Yields fraction (· < 10 ^ 9) := by
  unfold fraction
  refine .after fun c => ?_
  split
  · have hdigits : Yields (takeWhile Char.isDigit) fun ds => ∀ c ∈ ds, c.isDigit = true := by
      rintro cs ds rest hrun
      cases hrun
      exact fun c => List.mem_takeWhile_imp
    refine .after fun _ => hdigits.bind fun ds hds => .guard fun _ => .pure ?_
    have hlength : (ds.take 9).length + (9 - ds.length) = 9 := by
      rw [List.length_take]
      omega
    have hvalue : Number.digitsValue (ds.take 9) < 10 ^ (ds.take 9).length :=
      Number.digitsValue_lt fun c hc => hds c (List.mem_of_mem_take hc)
    calc Number.digitsValue (ds.take 9) * 10 ^ (9 - ds.length)
        < 10 ^ (ds.take 9).length * 10 ^ (9 - ds.length) :=
          Nat.mul_lt_mul_of_pos_right hvalue (Nat.pow_pos (by decide))
      _ = 10 ^ 9 := by rw [← Nat.pow_add, hlength]
  · exact .pure (by decide)

theorem yields_fullTimestamp : Yields fullTimestamp Valid := by
  unfold fullTimestamp
  refine .after fun year => .after fun _ => .after fun month => .after fun _ => .after fun day =>
    .after fun _ => .after fun hour => .after fun _ => .after fun minute => .after fun _ =>
    .after fun second => yields_fraction.bind fun nanosecond hnanosecond => .after fun ahead => ?_
  cases hdate : Date.mk? year month day with
  | none => exact yields_fail
  | some date =>
    refine .guard fun hpassed => .pure (Valid.addMinutes ?_ _)
    simp only [Bool.or_eq_true, decide_eq_true_eq, not_or, Nat.not_le] at hpassed
    obtain ⟨⟨hhour, hminute⟩, hsecond⟩ := hpassed
    exact ⟨Date.valid_of_mk? hdate, show hour * 60 + minute < 1440 by omega,
      Nat.le_of_lt_succ hsecond, hnanosecond⟩

theorem yields_plainDate : Yields plainDate Valid := by
  unfold plainDate
  refine .after fun _ => .after fun year => .after fun _ => .after fun _ => .after fun month =>
    .after fun _ => .after fun _ => .after fun day => ?_
  cases hdate : Date.mk? year month day with
  | none => exact yields_fail
  | some date =>
    exact .pure ⟨Date.valid_of_mk? hdate, Nat.zero_lt_succ _, Nat.zero_le _, Nat.zero_lt_succ _⟩

end

/-- What is read from a text is an instant of the calendar. -/
theorem valid_read? {s : String} (h : read? s = some t) : t.Valid := by
  unfold read? at h
  rcases Option.or_eq_some_iff.mp h with h | ⟨-, h⟩
  · exact yields_fullTimestamp _ _ _ (Reader.run?_eq_some_iff.mp h)
  · exact yields_plainDate _ _ _ (Reader.run?_eq_some_iff.mp h)

end Instant

end Phrasebook
