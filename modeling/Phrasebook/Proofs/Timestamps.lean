import Phrasebook.Proofs.Calendar
import Phrasebook.Proofs.Declarations
import Phrasebook.Proofs.Numerals

/-!
Timestamps that are read back, and instants that are passed on.

The value of an instant that is shown is its timestamp. A year from 0 to 9999 stands there in four
digits, and the instant is read back from it; any other year has a sign, which a timestamp that is
read may not have (`Instant.read?_timestamp`). So what one of the functions `datetime`, `date` and
`time` gives can be passed on to another as if it were the operand, within these years
(`InstantFunction.passed_on`).
-/

namespace Phrasebook

/-! ## White space -/

namespace Text

theorem isSpace_of_isDigit {c : Char} (h : c.isDigit = true) : isSpace c = false := by
  simp only [Char.isDigit, Bool.and_eq_true, decide_eq_true_eq, ge_iff_le,
    UInt32.le_iff_toNat_le] at h
  simp only [isSpace, Bool.or_eq_false_iff, Bool.and_eq_false_iff, beq_eq_false_iff_ne, ne_eq,
    decide_eq_false_iff_not, Char.le_def, UInt32.le_iff_toNat_le, Char.ext_iff,
    UInt32.toNat_inj.symm, Char.reduceVal, UInt32.reduceToNat] at h ⊢
  omega

theorem trimStart_of_forall {cs : List Char} (h : ∀ c ∈ cs, isSpace c = false) :
    trimStart cs = cs := by
  cases cs with
  | nil => rfl
  | cons c cs => simp [trimStart, h c]

theorem trim_of_forall {s : String} (h : ∀ c ∈ s.toList, isSpace c = false) : trim s = s := by
  have hreverse : ∀ c ∈ s.toList.reverse, isSpace c = false := by simpa using h
  rw [trim, trimChars, trimStart_of_forall h, trimStart_of_forall hreverse, List.reverse_reverse,
    String.ofList_toList]

end Text

namespace Instant

open Reader

/-! ## Parts of timestamps -/

theorem length_padded {width n : Nat} (hwidth : 0 < width) (h : n < 10 ^ width) :
    (padded width n).toList.length = width := by
  have hle := (Decimal.length_digits_le_iff hwidth).mpr h
  simp only [padded, String.toList_ofList, List.length_append, List.length_replicate]
  omega

theorem isDigit_of_mem_padded {width n : Nat} :
    ∀ c ∈ (padded width n).toList, c.isDigit = true := by
  intro c hc
  rw [padded, String.toList_ofList] at hc
  rcases List.mem_append.mp hc with hc | hc
  · rw [List.eq_of_mem_replicate hc]
    rfl
  · exact Decimal.isDigit_of_mem_digits hc

/-- A number is read from the digits that it is written in. -/
theorem natural_padded {width n : Nat} {rest : List Char} (hwidth : 0 < width)
    (h : n < 10 ^ width) :
    natural width width ((padded width n).toList ++ rest) = some (n, rest) := by
  have hdigits : digits width width ((padded width n).toList ++ rest) = some (_, rest) :=
    digits_append isDigit_of_mem_padded (length_padded hwidth h) le_rfl
  refine (bind_eq hdigits).trans ?_
  show some (Number.digitsValue _, rest) = _
  rw [padded, String.toList_ofList, Number.digitsValue_zeros_append, Number.digitsValue_digits]

theorem natural_cons_eq_none {c : Char} (h : c.isDigit = false) {least : Nat} (hleast : 0 < least)
    (most : Nat) (rest : List Char) : natural least most (c :: rest) = none :=
  bind_eq_none (digits_cons_eq_none h hleast most)

/-- The characters of a timestamp after its year. -/
def afterYear (t : Instant) : List Char :=
  '-' :: ((padded 2 t.date.month).toList ++ '-' :: ((padded 2 t.date.day).toList ++
    'T' :: ((padded 2 (t.minute / 60)).toList ++ ':' :: ((padded 2 (t.minute % 60)).toList ++
      ':' :: ((padded 2 t.second).toList ++ ['Z'])))))

theorem toList_timestamp (t : Instant) :
    t.timestamp.toList = (yearText t.date.year).toList ++ t.afterYear := by
  simp [timestamp, dateText, timeText, minuteText, afterYear]

theorem toList_yearText {year : Int} :
    (yearText year).toList = (if year < 0 then ['-'] else if 9999 < year then ['+'] else []) ++
      (padded 4 year.natAbs).toList := by
  rw [yearText, String.toList_append]
  congr 1
  split
  · rfl
  · split <;> rfl

theorem addMinutes_zero {t : Instant} (h : t.minute < 1440) : t.addMinutes 0 = t := by
  obtain ⟨date, minute, second, nanosecond⟩ := t
  have hday : ((minute : Int) + 0) / 1440 = 0 := by dsimp only at h; omega
  have hminute : (((minute : Int) + 0) % 1440).toNat = minute := by dsimp only at h; omega
  simp only [addMinutes, hday, hminute, Date.addDays, if_pos]

/-! ## Reading timestamps -/

/-- The instant without its fraction of a second, which a timestamp leaves out. -/
def wholeSecond (t : Instant) : Instant := { t with nanosecond := 0 }

/-- A year from 0 to 9999, which is written in four digits without a sign. -/
def HasPlainYear (t : Instant) : Prop := 0 ≤ t.date.year ∧ t.date.year ≤ 9999

instance (t : Instant) : Decidable t.HasPlainYear := inferInstanceAs (Decidable (_ ∧ _))

variable {t : Instant}

theorem HasPlainYear.toList_yearText (h : t.HasPlainYear) :
    (yearText t.date.year).toList = (padded 4 t.date.year.natAbs).toList := by
  obtain ⟨hlow, hhigh⟩ := h
  rw [Instant.toList_yearText, if_neg (by omega), if_neg (by omega), List.nil_append]

theorem HasPlainYear.mk?_date (h : t.HasPlainYear) (hvalid : t.Valid) :
    Date.mk? t.date.year.natAbs t.date.month t.date.day = some t.date := by
  obtain ⟨hlow, hhigh⟩ := h
  have hcovered : Date.isCoveredYear t.date.year = true := by
    simp only [Date.isCoveredYear, Bool.and_eq_true, decide_eq_true_eq]
    omega
  rw [Int.natAbs_of_nonneg hlow, hvalid.date.mk?_eq hcovered]

theorem fullTimestamp_timestamp (h : t.Valid) (hplain : t.HasPlainYear) :
    fullTimestamp t.timestamp.toList = some (t.wholeSecond, []) := by
  have hlength := Date.monthLength_le t.date.year t.date.month
  have hyear : t.date.year.natAbs < 10 ^ 4 := by
    have hlow := hplain.1
    have hhigh := hplain.2
    omega
  have hmonth : t.date.month < 10 ^ 2 := Nat.lt_of_le_of_lt h.date.month_le (by decide)
  have hday : t.date.day < 10 ^ 2 := Nat.lt_of_le_of_lt (h.date.day_le.trans hlength) (by decide)
  have hhour : t.minute / 60 < 24 := Nat.div_lt_of_lt_mul h.minute_lt
  have hminute : t.minute % 60 < 60 := Nat.mod_lt _ (by decide)
  have hsecond := h.second_le
  have htwo : ∀ {n : Nat} {rest : List Char}, n < 10 ^ 2 →
      natural 2 2 ((padded 2 n).toList ++ rest) = some (n, rest) := natural_padded (by decide)
  rw [toList_timestamp, hplain.toList_yearText, fullTimestamp, afterYear]
  refine (bind_eq (natural_padded (by decide) hyear)).trans <| (bind_eq (char_cons '-')).trans <|
    (bind_eq (htwo hmonth)).trans <| (bind_eq (char_cons '-')).trans <|
    (bind_eq (htwo hday)).trans <| (bind_eq (satisfy_cons _ 'T' _)).trans <|
    (bind_eq (htwo (by omega))).trans <| (bind_eq (char_cons ':')).trans <|
    (bind_eq (htwo (by omega))).trans <| (bind_eq (char_cons ':')).trans <|
    (bind_eq (htwo (by omega))).trans <| ?_
  -- what follows the second is no fraction but the mark of universal time
  have hfraction : fraction ['Z'] = some (0, ['Z']) := rfl
  have hzone : offset ['Z'] = some (0, []) := rfl
  refine (bind_eq hfraction).trans <| (bind_eq hzone).trans ?_
  rw [hplain.mk?_date h]
  dsimp only
  have hinRange : ¬ (decide (24 ≤ t.minute / 60) || decide (60 ≤ t.minute % 60) ||
      decide (61 ≤ t.second)) = true := by
    simp only [Bool.or_eq_true, decide_eq_true_eq]
    omega
  rw [if_neg hinRange, Nat.div_add_mod' t.minute 60]
  exact congrArg (fun u => some (u, [])) (addMinutes_zero (t := t.wholeSecond) h.minute_lt)

theorem fullTimestamp_timestamp_eq_none (hyear : ¬ t.HasPlainYear) :
    fullTimestamp t.timestamp.toList = none := by
  have hsigned : ∃ c cs, (yearText t.date.year).toList = c :: cs ∧ c.isDigit = false := by
    rw [toList_yearText]
    by_cases hlow : t.date.year < 0
    · rw [if_pos hlow]
      exact ⟨'-', _, rfl, rfl⟩
    · have hhigh : 9999 < t.date.year := by
        unfold HasPlainYear at hyear
        omega
      rw [if_neg hlow, if_pos hhigh]
      exact ⟨'+', _, rfl, rfl⟩
  obtain ⟨c, cs, hyear, hc⟩ := hsigned
  rw [toList_timestamp, hyear]
  exact bind_eq_none (natural_cons_eq_none hc (by decide) _ _)

theorem takes_natural (least most : Nat) : Takes (· ≠ 'T') (natural least most) :=
  (takes_digits (fun c hc heq => by subst heq; cases hc) _ _).bind fun _ => takes_pure _

theorem takes_signedYear : Takes (· ≠ 'T') signedYear := by
  have hdigits : Takes (· ≠ 'T') (takeWhile Char.isDigit) :=
    takes_takeWhile fun c hc heq => by subst heq; cases hc
  unfold signedYear
  refine takes_peek.bind fun c => ?_
  split
  · exact (takes_char (by decide)).bind fun _ => hdigits.bind fun _ => .guard (takes_pure _)
  · exact (takes_char (by decide)).bind fun _ => hdigits.bind fun _ => .guard (takes_pure _)
  · exact (takes_natural _ _).bind fun _ => takes_pure _

/-- A plain date has no letter. -/
theorem takes_plainDate : Takes (· ≠ 'T') plainDate := by
  have hspaces : Takes (· ≠ 'T') (takeWhile Text.isSpace) :=
    takes_takeWhile fun c hc heq => by subst heq; cases hc
  have hdash : Takes (· ≠ 'T') (char '-') := takes_char (by decide)
  unfold plainDate
  refine hspaces.bind fun _ => takes_signedYear.bind fun _ => hdash.bind fun _ =>
    hspaces.bind fun _ => (takes_natural _ _).bind fun _ => hdash.bind fun _ =>
    hspaces.bind fun _ => (takes_natural _ _).bind fun _ => ?_
  split
  · exact takes_fail
  · exact takes_pure _

theorem plainDate_timestamp (t : Instant) : plainDate.run? t.timestamp.toList = none := by
  rw [Option.eq_none_iff_forall_ne_some]
  intro u hu
  have hmem : 'T' ∈ t.timestamp.toList := by simp [toList_timestamp, afterYear]
  exact takes_plainDate.forall_mem hu _ hmem rfl

/-- A timestamp is read back if its year is plain. -/
theorem read?_timestamp (h : t.Valid) :
    read? t.timestamp = if t.HasPlainYear then some t.wholeSecond else none := by
  rw [read?, plainDate_timestamp, Option.or_none]
  split
  · next hyear => exact run?_eq_some_iff.mpr (fullTimestamp_timestamp h hyear)
  · next hyear =>
    rw [Option.eq_none_iff_forall_ne_some]
    intro u hu
    rw [run?_eq_some_iff, fullTimestamp_timestamp_eq_none hyear] at hu
    cases hu

theorem trim_timestamp (t : Instant) : Text.trim t.timestamp = t.timestamp := by
  have hpadded : ∀ width n, ∀ c ∈ (padded width n).toList, Text.isSpace c = false :=
    fun _ _ c hc => Text.isSpace_of_isDigit (isDigit_of_mem_padded c hc)
  have hsign : ∀ c ∈ (if t.date.year < 0 then ['-'] else if 9999 < t.date.year then ['+'] else []),
      Text.isSpace c = false := by
    split
    · exact List.forall_mem_singleton.mpr rfl
    · split
      · exact List.forall_mem_singleton.mpr rfl
      · exact List.forall_mem_nil _
  apply Text.trim_of_forall
  rw [toList_timestamp, toList_yearText, afterYear]
  simp only [List.forall_mem_append, List.forall_mem_cons]
  exact ⟨⟨hsign, hpadded _ _⟩, rfl, hpadded _ _, rfl, hpadded _ _, rfl, hpadded _ _, rfl,
    hpadded _ _, rfl, hpadded _ _, rfl, nofun⟩

end Instant

/-! ## Hooks that show no fraction of a second -/

/-- All instants of a second are shown alike. -/
structure Localizer.ShowsSeconds (localizer : Localizer) : Prop where
  date : ∀ locale t styles,
    localizer.dateText locale t.wholeSecond styles = localizer.dateText locale t styles
  time : ∀ locale t styles,
    localizer.timeText locale t.wholeSecond styles = localizer.timeText locale t styles
  dateTime : ∀ locale t styles,
    localizer.dateTimeText locale t.wholeSecond styles = localizer.dateTimeText locale t styles

theorem Localizer.showsSeconds_default (pluralCategory : String → Number → PluralCategory)
    (numberText : String → Number → FractionLimits → String) :
    Localizer.ShowsSeconds { pluralCategory, numberText } :=
  ⟨fun _ _ _ => rfl, fun _ _ _ => rfl, fun _ _ _ => rfl⟩

open MessageFunction

theorem MessageFunction.resolveInstant_wholeSecond {call : FunctionCall}
    (h : call.localizer.ShowsSeconds) (t : Instant) (styles : DateTimeStyles)
    (field : DateTimeField) :
    resolveInstant call t.wholeSecond styles field = resolveInstant call t styles field := by
  have hstamp : t.wholeSecond.timestamp = t.timestamp := rfl
  cases field with
  | date => simp only [resolveInstant, h.date, hstamp]
  | time => simp only [resolveInstant, h.time, hstamp]
  | both => simp only [resolveInstant, h.dateTime, hstamp]

/-! ## Functions that show instants -/

theorem MessageFunction.valid_of_instant? {v : Value} {t : Instant} (h : instant? v = some t) :
    t.Valid := by
  cases v with
  | number x =>
    obtain ⟨millis, -, hmillis⟩ := Option.bind_eq_some_iff.mp h
    exact Instant.valid_ofMillis? hmillis
  | string s => exact Instant.valid_read? h
  | null => cases h
  | bool b => cases h
  | list items => cases h
  | map entries => cases h

theorem MessageFunction.instant?_timestamp {t : Instant} (h : t.Valid) :
    instant? (.string t.timestamp) = if t.HasPlainYear then some t.wholeSecond else none := by
  rw [instant?, t.trim_timestamp, Instant.read?_timestamp h]

/-- The functions that show instants. -/
inductive InstantFunction where
  | datetime
  | date
  | time
  deriving DecidableEq

namespace InstantFunction

/-- The name that messages call the function by. -/
def name : InstantFunction → String
  | .datetime => "datetime"
  | .date => "date"
  | .time => "time"

def function : InstantFunction → MessageFunction
  | .datetime => MessageFunction.datetime
  | .date => MessageFunction.date
  | .time => MessageFunction.time

/-- The options that are read. -/
def optionNames : InstantFunction → List String
  | .datetime => ["dateStyle", "timeStyle"]
  | .date => ["style"]
  | .time => ["style"]

/-- The options that are read name styles, as far as they are given. -/
def Accepts (g : InstantFunction) (options : Options) : Prop :=
  ∀ name ∈ g.optionNames, ∀ v, options.find? name = some v →
    (DateTimeStyle.ofName? v.display).isSome = true

/-- The styles, and what of the instant is shown in them. -/
def styles (g : InstantFunction) (function : String) (options : Options) :
    Except FormatError (DateTimeStyles × DateTimeField) :=
  match g with
  | .datetime => do
    let dateStyle ← styleOption function options "dateStyle"
    let timeStyle ← styleOption function options "timeStyle"
    let field := match dateStyle, timeStyle with
      | some _, none => DateTimeField.date
      | none, some _ => .time
      | _, _ => .both
    return (⟨dateStyle, timeStyle⟩, field)
  | .date => do return (⟨← styleOption function options "style", none⟩, .date)
  | .time => do return (⟨none, ← styleOption function options "style"⟩, .time)

variable (g : InstantFunction) {call : FunctionCall} {options : Options} {operand : Option Value}

/-- The styles are read first, then the instant, and the instant is shown in the styles. -/
theorem function_eq (call : FunctionCall) (options : Options) (operand : Option Value) :
    g.function call options operand = do
      let (styles, field) ← g.styles call.name options
      let t ← instantOperand call.name operand
      return resolveInstant call t styles field := by
  cases g with
  | datetime =>
    simp only [function, styles, MessageFunction.datetime]
    cases styleOption call.name options "dateStyle" with
    | error e => rfl
    | ok dateStyle => cases styleOption call.name options "timeStyle" <;> rfl
  | date => simp [function, styles, MessageFunction.date]
  | time => simp [function, styles, MessageFunction.time]

variable {g} {t : Instant} {r : Resolved}

/-- Nothing but the instant of the operand matters, and what gives no instant is no date. -/
theorem function_some (v : Value) :
    g.function call options (some v) = (do
      let (styles, field) ← g.styles call.name options
      match instant? v with
      | some t => return resolveInstant call t styles field
      | none => .error (.badOperand call.name (.notADate v.display))) := by
  rw [function_eq]
  simp only [instantOperand]
  cases instant? v <;> rfl

/-- Operands with instants of one second are shown alike, whatever the places of the calls. -/
theorem function_congr {name locale source source' : String} {localizer : Localizer}
    (h : localizer.ShowsSeconds) {v w : Value} (hv : instant? v = some t.wholeSecond)
    (hw : instant? w = some t) :
    g.function ⟨name, locale, source, localizer⟩ options (some v) =
      g.function ⟨name, locale, source', localizer⟩ options (some w) := by
  rw [function_some, function_some, hv, hw]
  refine congrArg _ (funext fun shown => congrArg Except.ok ?_)
  exact resolveInstant_wholeSecond h t shown.1 shown.2

theorem of_function_eq_ok (h : g.function call options operand = .ok r) :
    ∃ v t, operand = some v ∧ instant? v = some t ∧ r.value = some (.string t.timestamp) ∧
      r.isFallback = false := by
  cases operand with
  | none =>
    rw [function_eq] at h
    obtain ⟨_, -, h⟩ := Outcome.bind_eq_ok h
    cases h
  | some v =>
    rw [function_some] at h
    obtain ⟨_, -, h⟩ := Outcome.bind_eq_ok h
    cases hv : instant? v with
    | none =>
      rw [hv] at h
      cases h
    | some t =>
      rw [hv] at h
      cases h
      exact ⟨v, t, rfl, hv, rfl, rfl⟩

theorem exists_styleOption {name : String} (h : ∀ v, options.find? name = some v →
    (DateTimeStyle.ofName? v.display).isSome = true) :
    ∃ style, ∀ function, styleOption function options name = .ok style := by
  cases hfind : options.find? name with
  | none => exact ⟨none, fun function => by rw [styleOption, hfind]⟩
  | some v =>
    obtain ⟨style, hstyle⟩ := Option.isSome_iff_exists.mp (h v hfind)
    exact ⟨some style, fun function => by simp only [styleOption, hfind, hstyle]⟩

theorem exists_styles (h : g.Accepts options) : ∃ s, ∀ name, g.styles name options = .ok s := by
  cases g with
  | datetime =>
    obtain ⟨dateStyle, hdate⟩ := exists_styleOption (h "dateStyle" (by decide))
    obtain ⟨timeStyle, htime⟩ := exists_styleOption (h "timeStyle" (by decide))
    exact ⟨_, fun name => by simp only [styles, hdate, htime]; rfl⟩
  | date =>
    obtain ⟨style, hstyle⟩ := exists_styleOption (h "style" (by decide))
    exact ⟨_, fun name => by simp only [styles, hstyle]; rfl⟩
  | time =>
    obtain ⟨style, hstyle⟩ := exists_styleOption (h "style" (by decide))
    exact ⟨_, fun name => by simp only [styles, hstyle]; rfl⟩

theorem find?_builtins (g : InstantFunction) :
    FunctionTable.builtins.find? g.name = some g.function := by
  cases g <;> rfl

end InstantFunction

/-! ## Names for instants -/

/-- The name is declared as what the function gives for an argument. -/
structure Message.DeclaresInstant (m : Message) (g : InstantFunction) (name x : String) : Prop where
  declared : ∃ d ∈ m.declarations, d.name = name ∧ d.expression.operand = some (.variable x) ∧
    ∃ options, d.expression.function = some ⟨g.name, options⟩
  argument : ∀ d ∈ m.declarations, d.name ≠ x

/-- Where the first item shows a name with a function for instants, the second may show an argument
with it. -/
inductive PatternItem.PassesBy (name x : String) : PatternItem → PatternItem → Prop
  | keep (item : PatternItem) : PassesBy name x item item
  | pass (h : InstantFunction) (options : List OptionEntry) (a b : Span) :
      PassesBy name x (.expression ⟨some (.variable name), some ⟨h.name, options⟩, a⟩)
        (.expression ⟨some (.variable x), some ⟨h.name, options⟩, b⟩)

namespace Formatter

variable {f : Formatter} {g : InstantFunction} {name x : String} {arguments : Arguments}

theorem evaluate_instant (hf : f.functions = .builtins) {s : Scope} {e : Expression}
    {options : List OptionEntry} (hoperand : e.operand = some (.variable x))
    (hfunction : e.function = some ⟨g.name, options⟩) {v : Value}
    (hv : operandValue s x = some (some v)) :
    f.evaluate s e =
      g.function ⟨g.name, f.locale, e.source, f.localizer⟩ (resolveOptions s options) (some v) := by
  rw [evaluate_annotated hoperand hfunction, hv]
  dsimp only
  rw [call, hf, g.find?_builtins]

/-- A name for an instant is bound to its timestamp, and the argument is as it was. -/
theorem declared_instant (hf : f.functions = .builtins) (hm : f.message.WellFormed)
    (hname : f.message.DeclaresInstant g name x) {v : Value} (hx : arguments.find? x = some v)
    {t : Instant} (hv : instant? v = some t) {s : Scope}
    (hs : f.declare { arguments } f.message.declarations = .ok s) :
    operandValue s name = some (some (.string t.timestamp)) ∧ operandValue s x = some (some v) := by
  have hargument : ∀ {ds : List Declaration} {u : Scope}, (∀ d ∈ ds, d.name ≠ x) →
      f.declare { arguments } ds = .ok u → operandValue u x = some (some v) := by
    intro ds u hds hu
    rw [operandValue, locals_declare hds hu, arguments_declare hu, hx]
    rfl
  refine ⟨?_, hargument hname.argument hs⟩
  obtain ⟨⟨d, hd, rfl, hoperand, options, hfunction⟩, hfree⟩ := hname
  obtain ⟨before, rest, hsplit⟩ := List.append_of_mem hd
  rw [hsplit, declare_append] at hs
  obtain ⟨u, hu, hs⟩ := Outcome.bind_eq_ok hs
  rw [declare] at hs
  obtain ⟨r, hr, hs⟩ := Outcome.bind_eq_ok hs
  have hbefore := hargument (fun e he => hfree e (hsplit ▸ List.mem_append_left _ he)) hu
  rw [evaluate_instant hf hoperand hfunction hbefore] at hr
  obtain ⟨_, _, hsame, hread, hvalue, hfallback⟩ := InstantFunction.of_function_eq_ok hr
  cases hsame
  cases hv.symm.trans hread
  have hbound := locals_declare (hm.not_redeclared hsplit) hs
  rw [Table.find?_insert_self] at hbound
  simp [operandValue, hbound, hfallback, hvalue]

/-- Within plain years an item shows the same for the name as for the argument. -/
theorem agree_resolveItem_of_passesBy (hf : f.functions = .builtins)
    (hlocalizer : f.localizer.ShowsSeconds) {s : Scope} {v : Value} {t : Instant} (hv : instant? v = some t) (hyear : t.HasPlainYear)
    (hname : operandValue s name = some (some (.string t.timestamp)))
    (hx : operandValue s x = some (some v)) {i j : PatternItem} (h : i.PassesBy name x j) :
    Outcome.Agree (fun a b => f.itemText a = f.itemText b) (f.resolveItem s i)
      (f.resolveItem s j) := by
  cases h with
  | keep => exact Outcome.agree_refl (R := fun a b => f.itemText a = f.itemText b) (fun _ => rfl) _
  | pass h options a b =>
    have hread : instant? (.string t.timestamp) = some t.wholeSecond := by
      rw [instant?_timestamp (valid_of_instant? hv), if_pos hyear]
    rw [resolveItem, resolveItem, evaluate_instant hf rfl rfl hname, evaluate_instant hf rfl rfl hx,
      InstantFunction.function_congr hlocalizer hread hv]
    generalize h.function _ _ _ = shown
    cases shown with
    | ok r => exact .ok rfl
    | error e => exact .error e

/-- The message with items that show an argument in place of the name for its instant shows the
same text, if the year of the instant is plain. -/
theorem format_passesBy {f' : Formatter} (h : f.ShowsLike f') (hf : f.functions = .builtins)
    (hlocalizer : f.localizer.ShowsSeconds) (hm : f.message.WellFormed)
    (hname : f.message.DeclaresInstant g name x)
    (hdeclarations : f'.message.declarations = f.message.declarations)
    (hbody : f.message.body.Corresponds (PatternItem.PassesBy name x) f'.message.body) {v : Value}
    (hx : arguments.find? x = some v) {t : Instant} (hv : instant? v = some t)
    (hyear : t.HasPlainYear) : f.format arguments = f'.format arguments := by
  have hdeclare : f.declare { arguments } f'.message.declarations =
      f.declare { arguments } f.message.declarations := by rw [hdeclarations]
  refine format_eq_of_agree h (agree_resolve h.toCallsLike hdeclare hbody fun s hs i j hij => ?_)
  obtain ⟨hbound, hargument⟩ := declared_instant hf hm hname hx hv hs
  exact agree_resolveItem_of_passesBy hf hlocalizer hv hyear hbound hargument hij

/-- The body with the argument can be written if the name of the argument can. -/
theorem wellFormed_of_passesBy {b c : Body} (h : b.Corresponds (PatternItem.PassesBy name x) c)
    (hx : IsName x) (hb : b.WellFormed) : c.WellFormed := by
  refine hb.of_corresponds ?_ ?_ h
  · rintro i j (_ | _) hi
    · exact hi
    · have hfunction := Expression.WellFormed.function hi
      exact ⟨fun o ho => Option.some.inj ho ▸ hx, hfunction, .inl rfl⟩
  · rintro i j (_ | _) hj
    · exact hj
    · exact hj

end Formatter

/-! ## Instants that are passed on -/

open Formatter

/-- What a function for instants gives can be passed on to another one, with any styles: where the
year of the instant is plain, its timestamp is shown as the operand itself is, and otherwise it is
no date to any of them. So within plain years a name for an instant may be shown in place of the
argument. -/
theorem InstantFunction.passed_on (pluralCategory : String → Number → PluralCategory)
    (numberText : String → Number → FractionLimits → String) (g h : InstantFunction) :
    let localizer : Localizer := { pluralCategory, numberText }
    (∀ (call call' : FunctionCall) (options options' : Options) (operand : Option Value)
        (r : Resolved),
      g.function { call with localizer } options operand = .ok r → h.Accepts options' →
        ∃ v t r', operand = some v ∧ instant? v = some t ∧
          h.function { call' with localizer } options' (some v) = .ok r' ∧
          ∀ source, h.function { call' with localizer, source } options' r.value =
            if t.HasPlainYear then .ok r'
            else .error (.badOperand call'.name (.notADate t.timestamp))) ∧
    ∀ (locale source : String) (isolates : Bool) (f : Formatter),
      compile locale source .builtins localizer isolates = .ok f →
      ∀ name x, f.message.DeclaresInstant g name x →
      ∀ body, f.message.body.Corresponds (PatternItem.PassesBy name x) body →
        let m : Message := ⟨f.message.declarations, body⟩
        (∃ source' f', compile locale source' .builtins localizer isolates = .ok f' ∧
          f'.message.unplaced = m.unplaced) ∧
        ∀ source' f', compile locale source' .builtins localizer isolates = .ok f' →
          f'.message.unplaced = m.unplaced → ∀ arguments v t, arguments.find? x = some v →
            instant? v = some t → t.HasPlainYear → f'.format arguments = f.format arguments := by
  intro localizer
  have hseconds := Localizer.showsSeconds_default pluralCategory numberText
  constructor
  · intro call call' options options' operand r hr hoptions
    obtain ⟨v, t, rfl, hv, hvalue, -⟩ := of_function_eq_ok hr
    obtain ⟨⟨styles, field⟩, hstyles⟩ := exists_styles hoptions
    have hshown : ∀ {call w u}, instant? w = some u →
        h.function call options' (some w) = .ok (resolveInstant call u styles field) := by
      intro call w u hw
      rw [function_some, hstyles, hw]
      rfl
    refine ⟨v, t, _, rfl, hv, hshown hv, fun source => ?_⟩
    rw [hvalue]
    have hread := instant?_timestamp (valid_of_instant? hv)
    split
    · next hyear =>
      rw [if_pos hyear] at hread
      exact (hshown hread).trans (congrArg _ (resolveInstant_wholeSecond hseconds t styles field))
    · next hyear =>
      rw [if_neg hyear] at hread
      rw [function_some, hstyles, hread]
      rfl
  · intro locale source isolates f hf name x hname body hbody m
    have hwellFormed := wellFormed_of_compile hf
    constructor
    · obtain ⟨d, hd, -, hoperand, -⟩ := hname.declared
      have hx : IsName x := (hwellFormed.declarations d hd).expression.operand _ hoperand
      have hm : m.WellFormed := ⟨hwellFormed.declarations, hwellFormed.distinct,
        wellFormed_of_passesBy hbody hx hwellFormed.body⟩
      exact hm.exists_compile ..
    · intro source' f' hf' hunplaced arguments v t hx hv hyear
      have hlocalizer : f.localizer.ShowsSeconds := localizer_of_compile hf ▸ hseconds
      have hsame := format_passesBy (showsLike_withMessage f m) (functions_of_compile hf)
        hlocalizer hwellFormed hname rfl hbody hx hv hyear
      rw [(format_of_compile hf hf' hunplaced arguments).1, hsame]

/-- An instant shown with `date`, by the name that `datetime` gives its value or by the name of the
argument. -/
def passingFormatter (name : String) : Formatter where
  locale := "en"
  source := ".local $d = {$x :datetime} \x7b\x7b\x7b$" ++ name ++ " :date\x7d\x7d\x7d"
  message :=
    ⟨[⟨.binding, "d", ⟨some (.variable "x"), some ⟨"datetime", []⟩, ⟨12, 26, 1, 13⟩⟩⟩],
      .pattern [.expression ⟨some (.variable name), some ⟨"date", []⟩, ⟨29, 39, 1, 30⟩⟩]⟩
  functions := .builtins
  localizer := .basic
  isolates := false

theorem InstantFunction.passed_on_offset :
    let v : Value := .string "2026-02-03T23:30:00-01:00"
    let f := passingFormatter "d"
    let f' := passingFormatter "x"
    ∃ r r', InstantFunction.datetime.function ⟨"datetime", "en", "$x", .basic⟩ [] (some v) = .ok r ∧
      r.value = some (.string "2026-02-04T00:30:00Z") ∧
      InstantFunction.date.function ⟨"date", "en", "$x", .basic⟩ [] (some v) = .ok r' ∧
      InstantFunction.date.function ⟨"date", "en", "$d", .basic⟩ [] r.value = .ok r' ∧
      compile "en" f.source .builtins .basic false = .ok f ∧
      compile "en" f'.source .builtins .basic false = .ok f' ∧
      f'.format [("x", v)] = f.format [("x", v)] := by
  intro v f f'
  have hf : compile "en" f.source .builtins .basic false = .ok f :=
    compile_of_parse (Outcome.eq_ok_of_toOption (by decide +kernel))
  have hf' : compile "en" f'.source .builtins .basic false = .ok f' :=
    compile_of_parse (Outcome.eq_ok_of_toOption (by decide +kernel))
  have hv : instant? v = some ⟨⟨2026, 2, 4⟩, 30, 0, 0⟩ := by decide +kernel
  obtain ⟨hvalue, hmessage⟩ := passed_on Localizer.basic.pluralCategory
    Localizer.basic.numberText .datetime .date
  have hr : InstantFunction.datetime.function ⟨"datetime", "en", "$x", .basic⟩ [] (some v) =
      .ok (resolveInstant ⟨"datetime", "en", "$x", .basic⟩ ⟨⟨2026, 2, 4⟩, 30, 0, 0⟩ {} .both) := by
    rw [function_some, hv]
    rfl
  have haccepts : InstantFunction.date.Accepts [] := fun _ _ _ hfind => by cases hfind
  obtain ⟨_, t, r', hsame, hread, hr', hpassed⟩ := hvalue ⟨"datetime", "en", "$x", .basic⟩
    ⟨"date", "en", "$x", .basic⟩ [] [] (some v) _ hr haccepts
  cases hsame
  cases hv.symm.trans hread
  have hname : f.message.DeclaresInstant .datetime "d" "x" :=
    ⟨⟨_, List.mem_cons_self, rfl, rfl, [], rfl⟩, List.forall_mem_singleton.mpr (by decide)⟩
  have hbody : f.message.body.Corresponds (PatternItem.PassesBy "d" "x") f'.message.body :=
    .pattern (.cons (.pass .date [] _ _) .nil)
  have hformat := (hmessage "en" f.source false f hf "d" "x" hname _ hbody).2 _ f' hf' rfl
    [("x", v)] v _ rfl hv (by decide)
  have hstamp : Instant.timestamp ⟨⟨2026, 2, 4⟩, 30, 0, 0⟩ = "2026-02-04T00:30:00Z" := by
    decide +kernel
  exact ⟨_, r', hr, congrArg (fun s => some (Value.string s)) hstamp, hr', hpassed "$d", hf, hf',
    hformat⟩

/-- A year beyond 9999, as of the operand here in universal time, has a sign in the timestamp. -/
theorem InstantFunction.not_passed_on_signed :
    let v : Value := .string "9999-12-31T23:59:59-01:00"
    let f := passingFormatter "d"
    let f' := passingFormatter "x"
    let fault : FormatError := .badOperand "date" (.notADate "+10000-01-01T00:59:59Z")
    ∃ r r', InstantFunction.datetime.function ⟨"datetime", "en", "$x", .basic⟩ [] (some v) = .ok r ∧
      InstantFunction.date.function ⟨"date", "en", "$x", .basic⟩ [] (some v) = .ok r' ∧
      InstantFunction.date.function ⟨"date", "en", "$d", .basic⟩ [] r.value = .error fault ∧
      compile "en" f.source .builtins .basic false = .ok f ∧
      compile "en" f'.source .builtins .basic false = .ok f' ∧
      f.format [("x", v)] = .error fault ∧ f'.format [("x", v)] = .ok "+10000-01-01" := by
  intro v f f' fault
  have hf : compile "en" f.source .builtins .basic false = .ok f :=
    compile_of_parse (Outcome.eq_ok_of_toOption (by decide +kernel))
  have hf' : compile "en" f'.source .builtins .basic false = .ok f' :=
    compile_of_parse (Outcome.eq_ok_of_toOption (by decide +kernel))
  have hv : instant? v = some ⟨⟨10000, 1, 1⟩, 59, 59, 0⟩ := by decide +kernel
  have hstamp : Instant.timestamp ⟨⟨10000, 1, 1⟩, 59, 59, 0⟩ = "+10000-01-01T00:59:59Z" := by
    decide +kernel
  have hshown : ∀ g : InstantFunction, ∃ r,
      g.function ⟨g.name, "en", "$x", .basic⟩ [] (some v) = .ok r ∧
        r.value = some (.string "+10000-01-01T00:59:59Z") := by
    intro g
    cases g
    all_goals
      rw [function_some, hv]
      exact ⟨_, rfl, congrArg (fun s => some (Value.string s)) hstamp⟩
  obtain ⟨r, hr, hvalue⟩ := hshown .datetime
  obtain ⟨r', hr', -⟩ := hshown .date
  refine ⟨r, r', hr, hr', ?_, hf, hf', by decide +kernel, by decide +kernel⟩
  have hread : instant? (.string "+10000-01-01T00:59:59Z") = none := by decide +kernel
  rw [hvalue, function_some, hread]
  rfl

end Phrasebook
