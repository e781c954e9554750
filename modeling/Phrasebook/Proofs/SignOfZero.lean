import Phrasebook.Function.Builtin
import Phrasebook.Proofs.Numerals
import Phrasebook.Proofs.Outcome

/-!
The sign of a number that is shown as zero.

A decimal shows zero if its coefficient is zero (`Decimal.showsZero_text`), and what pads or trims
its fraction keeps that apart from the sign. The shortest decimal of a number is zero only for the
zeros, which show no sign. A rounded number loses its sign where it is zero and no place is left,
so a sign stays in front of a zero just where the limits keep places that zeros fill
(`Number.RoundsToSignedZero`). Main statement: `Localizer.basic_sign_of_zero`.
-/

namespace Phrasebook

/-! ## Texts -/

namespace Text

/-- The text begins with a minus sign. -/
def IsSigned (s : String) : Prop := s.toList.head? = some '-'

/-- The text has digits, and all of them are zeros. -/
def ShowsZero (s : String) : Prop :=
  (∃ c ∈ s.toList, c.isDigit = true) ∧ ∀ c ∈ s.toList, c.isDigit = true → c = '0'

theorem zeros_of_all {s : String} (h : s.toList.all (fun c => !c.isDigit || c == '0') = true) :
    ∀ c ∈ s.toList, c.isDigit = true → c = '0' := by
  intro c hc hdigit
  simpa [hdigit] using List.all_eq_true.mp h c hc

end Text

namespace Numeral

theorem isSigned_text (x : Numeral) : Text.IsSigned x.text ↔ x.negative = true := by
  rw [Text.IsSigned, text, String.toList_ofList]
  cases x.negative
  · simpa using x.head?_unsignedChars_ne
  · simp

/-- The digits of a numeral's text are those of the whole and of the fraction. -/
theorem mem_text_and_isDigit_iff (x : Numeral) (c : Char) :
    c ∈ x.text.toList ∧ c.isDigit = true ↔ c ∈ x.whole ++ x.fraction := by
  have hdigit := x.isDigit_of_mem c
  have hminus : c.isDigit = true → c ≠ '-' := by
    rintro h rfl
    cases h
  have hpoint : c.isDigit = true → c ≠ '.' := by
    rintro h rfl
    cases h
  have hfraction : c ∈ x.fractionChars ∧ c.isDigit = true ↔
      c ∈ x.fraction ∧ c.isDigit = true := by
    rcases x.fractionChars_eq with ⟨hnone, h⟩ | h
    · rw [h, hnone]
    · rw [h, List.mem_cons]
      exact and_congr_left fun hc => or_iff_right (hpoint hc)
  rw [text, String.toList_ofList, unsignedChars]
  cases x.negative <;> grind

theorem exists_isDigit_text (x : Numeral) : ∃ c ∈ x.text.toList, c.isDigit = true := by
  obtain ⟨c, cs, hwhole⟩ := List.exists_cons_of_ne_nil x.whole_ne_nil
  exact ⟨c, (x.mem_text_and_isDigit_iff c).mpr (by simp [hwhole])⟩

theorem showsZero_text (x : Numeral) :
    Text.ShowsZero x.text ↔ ∀ c ∈ x.whole ++ x.fraction, c = '0' := by
  simp only [Text.ShowsZero, ← mem_text_and_isDigit_iff, and_imp]
  exact and_iff_right x.exists_isDigit_text

end Numeral

/-! ## Decimals -/

namespace Decimal

theorem value_eq_zero_iff (d : Decimal) : d.value = 0 ↔ d.coefficient = 0 := by
  rw [value]
  cases d.negative <;> simp

theorem coefficient_eq_zero_iff (d : Decimal) :
    d.coefficient = 0 ↔ ∀ c ∈ d.paddedDigits, c = '0' := by
  constructor
  · intro h
    have hdigits : digits 0 = ['0'] := rfl
    rw [paddedDigits, h, hdigits, List.forall_mem_append]
    exact ⟨fun c hc => List.eq_of_mem_replicate hc, by simp⟩
  · intro h
    have hzeros := List.eq_replicate_of_mem h
    rw [← d.digitsValue_paddedDigits, hzeros, ← List.append_nil (List.replicate _ _),
      Number.digitsValue_zeros_append]
    rfl

theorem isSigned_text (d : Decimal) : Text.IsSigned d.text ↔ d.negative = true := by
  rw [← Numeral.text_ofDecimal, Numeral.isSigned_text]
  rfl

theorem showsZero_text (d : Decimal) : Text.ShowsZero d.text ↔ d.coefficient = 0 := by
  rw [← Numeral.text_ofDecimal, Numeral.showsZero_text, coefficient_eq_zero_iff,
    ← d.wholeDigits_append_fractionDigits]
  rfl

theorem coefficient_padTo (d : Decimal) (places : Nat) :
    (d.padTo places).coefficient = 0 ↔ d.coefficient = 0 := by
  rw [← value_eq_zero_iff, value_padTo, value_eq_zero_iff]

theorem coefficient_trimTo (d : Decimal) (places : Nat) :
    (d.trimTo places).coefficient = 0 ↔ d.coefficient = 0 := by
  rw [← value_eq_zero_iff, value_trimTo, value_eq_zero_iff]

theorem negative_dropZeros (d : Decimal) (n : Nat) : (d.dropZeros n).negative = d.negative := by
  induction n generalizing d with
  | zero => rfl
  | succ n ih =>
    rw [dropZeros]
    split
    · rfl
    · rw [ih]

/-- A zero that is trimmed keeps the places asked for and no others. -/
theorem places_trimTo_of_zero {d : Decimal} {places : Nat} (hle : places ≤ d.places)
    (h : d.coefficient = 0) : (d.trimTo places).places = places := by
  obtain ⟨-, -, hlast⟩ := dropZeros_spec d (d.places - places)
  have hzero : (d.dropZeros (d.places - places)).coefficient = 0 := (coefficient_trimTo ..).mpr h
  have hmin := (trimTo_spec hle).1
  rw [trimTo] at hmin ⊢
  omega

end Decimal

/-! ## Numbers -/

/-- A quotient rounds to zero if it is at most a half. -/
theorem roundHalfEven_eq_zero_iff (n : Nat) {d : Nat} (hd : 0 < d) :
    roundHalfEven n d = 0 ↔ 2 * n ≤ d := by
  have hn := Nat.div_add_mod n d
  have hr := Nat.mod_lt n hd
  rcases Nat.eq_zero_or_pos (n / d) with hzero | hpos
  · rw [hzero, Nat.mul_zero, Nat.zero_add] at hn
    simp only [roundHalfEven, hzero, hn]
    grind
  · have hlarge : d ≤ d * (n / d) := Nat.le_mul_of_pos_right d hpos
    have hround : 0 < roundHalfEven n d := by
      unfold roundHalfEven
      grind
    omega

namespace Number

theorem grain_pos : 0 < grain := by
  unfold grain
  generalize 1074 = n
  exact Nat.pow_pos (by decide)

theorem spacing_le {m : Nat} (h : m ≠ 0) : spacing m ≤ m :=
  Nat.le_trans (Nat.pow_le_pow_right (by decide) (Nat.sub_le _ _)) (Nat.log2_self_le h)

/-- Zero reads back to no other number. -/
theorem readsBack_zero {m : Nat} (h : m ≠ 0) : readsBack m 0 = false := by
  have hspacing := spacing_le h
  have hbelow : spacingBelow m ≤ 2 * spacing m := by
    unfold spacingBelow
    split <;> omega
  have hlow : 0 < (4 * m - spacingBelow m) * grain := Nat.mul_pos (by omega) grain_pos
  unfold readsBack
  dsimp only
  split
  · rw [decide_eq_false (by omega), Bool.false_and]
  · rw [decide_eq_false (by omega), Bool.false_and]

theorem onGrid_ne_zero {tie : Tie} {m j k : Nat} (h : m ≠ 0) (hk : onGrid tie m j = some k) :
    k ≠ 0 := by
  have hbelow : ∀ n, readsBack m (n * Nat.pow 10 j) = true → n ≠ 0 := by
    rintro n hn rfl
    rw [Nat.zero_mul, readsBack_zero h] at hn
    cases hn
  unfold onGrid at hk
  dsimp only at hk
  split at hk
  · next hlow _ =>
    rw [← Option.some.inj hk]
    split
    · exact Nat.succ_ne_zero _
    · exact hbelow _ hlow
  · next hlow _ =>
    rw [← Option.some.inj hk]
    exact hbelow _ hlow
  · rw [← Option.some.inj hk]
    exact Nat.succ_ne_zero _
  · cases hk

theorem shortestFrom_ne_zero {tie : Tie} {m : Nat} (h : m ≠ 0) (j : Nat) :
    (shortestFrom tie m j).1 ≠ 0 := by
  induction j with
  | zero => exact Nat.mul_ne_zero h grain_pos.ne'
  | succ j ih =>
    rw [shortestFrom]
    split
    · next k hk => exact onGrid_ne_zero h hk
    · exact ih

theorem negative_shortest (tie : Tie) (negative : Bool) (m : Nat) :
    (shortest tie negative m).negative = negative := by
  unfold shortest
  split
  · rfl
  · generalize shortestDigits tie m = digits
    obtain ⟨k, j⟩ := digits
    rfl

/-- The shortest decimal of a number is zero for the zeros alone. -/
theorem coefficient_shortest (tie : Tie) (negative : Bool) (m : Nat) :
    (shortest tie negative m).coefficient = 0 ↔ m = 0 := by
  unfold shortest
  split
  · next h => simp [h]
  · next h =>
    have hdigits : (shortestDigits tie m).1 ≠ 0 := shortestFrom_ne_zero h _
    have hpow : ∀ k, Nat.pow 10 k ≠ 0 := fun k => (Nat.pow_pos (n := k) (by decide)).ne'
    generalize shortestDigits tie m = digits at hdigits
    obtain ⟨k, j⟩ := digits
    exact iff_of_false (Nat.mul_ne_zero hdigits (hpow _)) h

/-- A negative number, or the zero with a sign, that is at most half of the last place its limits
leave, where the limits ask for a fraction. -/
def RoundsToSignedZero (limits : FractionLimits) : Number → Prop
  | .finite negative m =>
    negative = true ∧ 0 < limits.minimum.getD 0 ∧ ∃ maximum, limits.maximum = some maximum ∧
      2 * (m * 10 ^ max maximum (limits.minimum.getD 0)) ≤ one
  | _ => False

/-- With a maximum, a sign stays in front of a zero where the minimum keeps places for it. -/
theorem limited_of_maximum_signed_zero_iff {limits : FractionLimits} {maximum : Nat}
    (h : limits.maximum = some maximum) (negative : Bool) (m : Nat) :
    let minimum := limits.minimum.getD 0
    (limited limits negative m).negative = true ∧ (limited limits negative m).coefficient = 0 ↔
      negative = true ∧ 0 < minimum ∧ (fixed negative m (max maximum minimum)).coefficient = 0 := by
  intro minimum
  let rounded := fixed negative m (max maximum minimum)
  have hlimited : limited limits negative m =
      if (rounded.trimTo minimum).coefficient = 0 ∧ (rounded.trimTo minimum).places = 0 then
        { rounded.trimTo minimum with negative := false }
      else rounded.trimTo minimum := by
    simp only [limited, h]
    rfl
  have hsign : (rounded.trimTo minimum).negative = negative := Decimal.negative_dropZeros ..
  have hplaces : rounded.coefficient = 0 → (rounded.trimTo minimum).places = minimum :=
    Decimal.places_trimTo_of_zero (Nat.le_max_right _ _)
  rw [hlimited]
  split
  · next hdropped =>
    have hzero := (Decimal.coefficient_trimTo ..).mp hdropped.1
    have hnone : minimum = 0 := (hplaces hzero).symm.trans hdropped.2
    simp [hnone]
  · next hkept =>
    rw [hsign, Decimal.coefficient_trimTo]
    rw [Decimal.coefficient_trimTo] at hkept
    have hpos : rounded.coefficient = 0 → 0 < minimum := fun hzero =>
      Nat.pos_of_ne_zero fun hnone => hkept ⟨hzero, (hplaces hzero).trans hnone⟩
    constructor
    · rintro ⟨hs, hzero⟩
      exact ⟨hs, hpos hzero, hzero⟩
    · rintro ⟨hs, -, hzero⟩
      exact ⟨hs, hzero⟩

theorem limited_signed_zero_iff (limits : FractionLimits) (negative : Bool) (m : Nat) :
    (limited limits negative m).negative = true ∧ (limited limits negative m).coefficient = 0 ↔
      (Number.finite negative m).RoundsToSignedZero limits := by
  cases hmaximum : limits.maximum with
  | none =>
    have hlimited : limited limits negative m =
        (shown negative m).padTo (limits.minimum.getD 0) := by
      rw [limited, hmaximum]
    have hsign : (shown negative m).negative = (negative && m != 0) := negative_shortest ..
    have hzero : (shown negative m).coefficient = 0 ↔ m = 0 := coefficient_shortest ..
    rw [hlimited, Decimal.coefficient_padTo, hzero]
    refine iff_of_false ?_ (by simp [RoundsToSignedZero, hmaximum])
    rintro ⟨hnegative, rfl⟩
    rw [Decimal.padTo, hsign] at hnegative
    simp at hnegative
  | some maximum =>
    refine (limited_of_maximum_signed_zero_iff hmaximum negative m).trans ?_
    simp [RoundsToSignedZero, hmaximum, fixed, roundHalfEven_eq_zero_iff _ one_pos]

end Number

/-! ## What functions show -/

/-- A number is shown as a zero with a sign just where its limits round it to one. -/
theorem Localizer.isSigned_and_showsZero_iff (locale : String) (limits : FractionLimits)
    (x : Number) :
    Text.IsSigned (basic.numberText locale x limits) ∧
        Text.ShowsZero (basic.numberText locale x limits) ↔ x.RoundsToSignedZero limits := by
  have hwords : ∀ word ∈ ["NaN", "Infinity", "-Infinity"], ¬ Text.ShowsZero word := by
    have hdigits : ["NaN", "Infinity", "-Infinity"].all
        (fun word => word.toList.all fun c => !c.isDigit) = true := by decide
    rintro word hword ⟨⟨c, hc, hdigit⟩, -⟩
    have hnone := List.all_eq_true.mp (List.all_eq_true.mp hdigits word hword) c hc
    rw [hdigit] at hnone
    cases hnone
  cases x with
  | finite negative m =>
    rw [← Number.limited_signed_zero_iff, ← Decimal.isSigned_text, ← Decimal.showsZero_text]
    rfl
  | nan => exact iff_of_false (fun h => hwords "NaN" (by simp) h.2) id
  | infinite negative =>
    cases negative with
    | false => exact iff_of_false (fun h => hwords "Infinity" (by simp) h.2) id
    | true => exact iff_of_false (fun h => hwords "-Infinity" (by simp) h.2) id

/-- A finite number shows a sign in front of nothing but zeros just where its limits round it to a
zero with a sign. -/
theorem Localizer.signed_of_finite (locale : String) (limits : FractionLimits) (negative : Bool)
    (m : Nat) :
    let text := basic.numberText locale (.finite negative m) limits
    (Text.IsSigned text → ∃ c ∈ text.toList, c.isDigit = true ∧ c ≠ '0') ↔
      ¬ (Number.finite negative m).RoundsToSignedZero limits := by
  intro text
  have htext : text = (Numeral.ofDecimal (Number.limited limits negative m)).text :=
    (Numeral.text_ofDecimal _).symm
  have hdigit : ∃ c ∈ text.toList, c.isDigit = true := htext ▸ Numeral.exists_isDigit_text _
  rw [← isSigned_and_showsZero_iff locale limits, not_and]
  refine imp_congr_right fun _ => ?_
  constructor
  · rintro ⟨c, hc, hdigit, hne⟩ hzero
    exact hne (hzero.2 c hc hdigit)
  · intro hzero
    by_contra hnone
    push Not at hnone
    exact hzero ⟨hdigit, hnone⟩

/-! ## Sub-parts -/

theorem SubPart.kind_of_mem_ofUnsigned {cs : List Char} {p : SubPart} (h : p ∈ ofUnsigned cs) :
    p.kind ∈ ["integer", "decimal", "fraction"] := by
  unfold ofUnsigned at h
  dsimp only at h
  split at h
  · rw [List.mem_singleton.mp h]
    exact List.mem_cons_self
  · simp only [List.mem_cons, List.not_mem_nil, or_false] at h
    rcases h with rfl | rfl | rfl <;> simp [ofChars]

theorem SubPart.exists_minusSign_iff (s : String) :
    (∃ p ∈ ofNumberText s, p.kind = "minusSign") ↔ Text.IsSigned s := by
  unfold ofNumberText Text.IsSigned
  split
  · next rest h => simp [h, ofChars]
  · next hsign =>
    refine iff_of_false ?_ fun hhead => ?_
    · rintro ⟨p, hp, hkind⟩
      have hmem := kind_of_mem_ofUnsigned hp
      rw [hkind] at hmem
      revert hmem
      decide
    · obtain ⟨rest, hrest⟩ := List.head?_eq_some_iff.mp hhead
      exact hsign rest hrest

/-! ## Functions -/

/-- One of the value's sub-parts is a minus sign. -/
def Resolved.HasMinusSign (r : Resolved) : Prop :=
  ∃ parts, r.parts = some parts ∧ ∃ p ∈ parts, p.kind = "minusSign"

namespace MessageFunction

variable {call : FunctionCall} {options : Options} {operand : Option Value} {r : Resolved}

theorem resolveNumber_of_number (h : number call options operand = .ok r) :
    ∃ x limits exactOnly,
      digitsOption call.name options "minimumFractionDigits" = .ok limits.minimum ∧
      digitsOption call.name options "maximumFractionDigits" = .ok limits.maximum ∧
      r = resolveNumber call x limits exactOnly := by
  obtain ⟨x, -, h⟩ := Outcome.bind_eq_ok h
  obtain ⟨minimum, hminimum, h⟩ := Outcome.bind_eq_ok h
  obtain ⟨maximum, hmaximum, h⟩ := Outcome.bind_eq_ok h
  obtain ⟨exactOnly, -, h⟩ := Outcome.bind_eq_ok h
  cases h
  exact ⟨x, ⟨minimum, maximum⟩, exactOnly, hminimum, hmaximum, rfl⟩

theorem resolveNumber_of_integer (h : integer call options operand = .ok r) :
    ∃ x exactOnly, r = resolveNumber call x ⟨none, some 0⟩ exactOnly := by
  obtain ⟨x, -, h⟩ := Outcome.bind_eq_ok h
  obtain ⟨exactOnly, -, h⟩ := Outcome.bind_eq_ok h
  cases h
  exact ⟨x.trunc, exactOnly, rfl⟩

theorem hasMinusSign_resolveNumber (call : FunctionCall) (x : Number) (limits : FractionLimits)
    (exactOnly : Bool) :
    (resolveNumber call x limits exactOnly).HasMinusSign ↔
      Text.IsSigned (resolveNumber call x limits exactOnly).text := by
  simp only [Resolved.HasMinusSign, resolveNumber, Option.some.injEq, exists_eq_left']
  exact SubPart.exists_minusSign_iff _

/-- A number that shows as zero has a sign just where its limits round it to a zero with one. -/
theorem isSigned_resolveNumber_iff (hcall : call.localizer = .basic) {x : Number}
    {limits : FractionLimits} {exactOnly : Bool}
    (hzero : Text.ShowsZero (resolveNumber call x limits exactOnly).text) :
    Text.IsSigned (resolveNumber call x limits exactOnly).text ↔ x.RoundsToSignedZero limits := by
  rw [← Localizer.isSigned_and_showsZero_iff call.locale, ← hcall]
  exact (and_iff_left hzero).symm

end MessageFunction

/-- The sign of what is shown as zero. The text of a finite number has a sign in front of nothing
but zeros in one case alone: the number is negative or the negative zero, a maximum rounds it to
zero, and the minimum keeps places for the zeros. So the function `number` shows a zero with a sign,
and gives it a sub-part for the sign, in that case alone, and the function `integer` never does. -/
theorem Localizer.basic_sign_of_zero (locale : String) (limits : FractionLimits)
    (negative : Bool) (m : Nat) :
    let text := basic.numberText locale (.finite negative m) limits
    ((Text.IsSigned text → ∃ c ∈ text.toList, c.isDigit = true ∧ c ≠ '0') ↔
      ¬ (Number.finite negative m).RoundsToSignedZero limits) ∧
    (∀ call options operand r, call.localizer = .basic →
      MessageFunction.number call options operand = .ok r →
        ∃ x limits, r.value = some (.number x) ∧
          MessageFunction.digitsOption call.name options "minimumFractionDigits" =
            .ok limits.minimum ∧
          MessageFunction.digitsOption call.name options "maximumFractionDigits" =
            .ok limits.maximum ∧
          (Text.ShowsZero r.text →
            (Text.IsSigned r.text ↔ x.RoundsToSignedZero limits) ∧
              (r.HasMinusSign ↔ x.RoundsToSignedZero limits))) ∧
    ∀ call options operand r, call.localizer = .basic →
      MessageFunction.integer call options operand = .ok r →
        Text.ShowsZero r.text → ¬ Text.IsSigned r.text ∧ ¬ r.HasMinusSign := by
  intro text
  refine ⟨signed_of_finite locale limits negative m, fun call options operand r hcall h => ?_,
    fun call options operand r hcall h hzero => ?_⟩
  · obtain ⟨x, limits, exactOnly, hminimum, hmaximum, rfl⟩ :=
      MessageFunction.resolveNumber_of_number h
    refine ⟨x, limits, rfl, hminimum, hmaximum, fun hzero => ?_⟩
    have hsigned := MessageFunction.isSigned_resolveNumber_iff hcall hzero
    exact ⟨hsigned, (MessageFunction.hasMinusSign_resolveNumber ..).trans hsigned⟩
  · obtain ⟨x, exactOnly, rfl⟩ := MessageFunction.resolveNumber_of_integer h
    have hunsigned : ¬ x.RoundsToSignedZero ⟨none, some 0⟩ := by
      cases x <;> simp [Number.RoundsToSignedZero]
    rw [MessageFunction.hasMinusSign_resolveNumber,
      MessageFunction.isSigned_resolveNumber_iff hcall hzero]
    exact ⟨hunsigned, hunsigned⟩

/-- A call with the basic localizer. -/
def basicCall (name : String) : FunctionCall := ⟨name, "en", "$x", .basic⟩

/-- Where no minimum asks for a fraction, what rounds to zero has no sign. -/
theorem Localizer.basic_sign_of_zero_trimmed :
    let text := basic.numberText "en" (.finite true 0) ⟨none, some 1⟩
    (Text.IsSigned text → ∃ c ∈ text.toList, c.isDigit = true ∧ c ≠ '0') ∧
    (∃ r, MessageFunction.number (basicCall "number") [("maximumFractionDigits", .string "1")]
          (some (.string "-0.001")) = .ok r ∧
        r.text = "0" ∧ ¬ Text.IsSigned r.text ∧ ¬ r.HasMinusSign) ∧
    ∃ r, MessageFunction.integer (basicCall "integer") [] (some (.string "-0.001")) = .ok r ∧
      r.text = "0" ∧ ¬ Text.IsSigned r.text ∧ ¬ r.HasMinusSign := by
  intro text
  have hzero : Text.ShowsZero "0" := ⟨⟨'0', by decide, by decide⟩, Text.zeros_of_all (by decide)⟩
  obtain ⟨htexts, hnumber, hinteger⟩ := basic_sign_of_zero "en" ⟨none, some 1⟩ true 0
  refine ⟨htexts.mpr (by simp [Number.RoundsToSignedZero]), ?_, ?_⟩
  · obtain ⟨r, hr, htext⟩ := Outcome.exists_of_any
      (MessageFunction.number (basicCall "number") [("maximumFractionDigits", .string "1")]
        (some (.string "-0.001"))) (·.text == "0") (by decide +kernel)
    have htext : r.text = "0" := eq_of_beq htext
    obtain ⟨x, limits, -, hminimum, -, hsign⟩ := hnumber _ _ _ _ rfl hr
    have hnone : limits.minimum = none := (Except.ok.inj hminimum).symm
    have hunsigned : ¬ x.RoundsToSignedZero limits := by
      cases x <;> simp [Number.RoundsToSignedZero, hnone]
    obtain ⟨hsigned, hpart⟩ := hsign (htext ▸ hzero)
    exact ⟨r, hr, htext, hsigned.not.mpr hunsigned, hpart.not.mpr hunsigned⟩
  · obtain ⟨r, hr, htext⟩ := Outcome.exists_of_any
      (MessageFunction.integer (basicCall "integer") [] (some (.string "-0.001")))
      (·.text == "0") (by decide +kernel)
    have htext : r.text = "0" := eq_of_beq htext
    exact ⟨r, hr, htext, hinteger _ _ _ _ rfl hr (htext ▸ hzero)⟩

/-- Two places of zeros that the minimum keeps stand behind the sign of what was rounded. -/
theorem Localizer.basic_keeps_sign_of_zero :
    ∃ r, MessageFunction.number (basicCall "number")
          [("maximumFractionDigits", .string "2"), ("minimumFractionDigits", .string "2")]
          (some (.string "-0.001")) = .ok r ∧
        r.text = "-0.00" ∧ Text.IsSigned r.text ∧
        (¬ ∃ c ∈ r.text.toList, c.isDigit = true ∧ c ≠ '0') ∧ r.HasMinusSign := by
  obtain ⟨r, hr, htext⟩ := Outcome.exists_of_any
    (MessageFunction.number (basicCall "number")
      [("maximumFractionDigits", .string "2"), ("minimumFractionDigits", .string "2")]
      (some (.string "-0.001"))) (·.text == "-0.00") (by decide +kernel)
  have htext : r.text = "-0.00" := eq_of_beq htext
  have hsigned : Text.IsSigned r.text := by
    rw [htext]
    rfl
  have hzeros : ¬ ∃ c ∈ "-0.00".toList, c.isDigit = true ∧ c ≠ '0' := by
    rintro ⟨c, hc, hdigit, hne⟩
    exact hne (Text.zeros_of_all (by decide) c hc hdigit)
  obtain ⟨x, limits, exactOnly, -, -, rfl⟩ := MessageFunction.resolveNumber_of_number hr
  exact ⟨_, hr, htext, hsigned, htext ▸ hzeros,
    (MessageFunction.hasMinusSign_resolveNumber ..).mpr hsigned⟩

end Phrasebook
