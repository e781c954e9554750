import Phrasebook.Function.Basic

/-!
The functions that every message may call: `string`, `number`, `integer`, `datetime`, `date`
and `time`.
-/

namespace Phrasebook.MessageFunction

/-! ## Text -/

def string : MessageFunction := fun call _ operand =>
  match operand with
  | none => .error (.badOperand call.name .missing)
  | some v => .ok (.string v.display)

/-! ## Numbers -/

/-- A number, or a text that reads as one. -/
def numericOperand (function : String) : Option Value → Except FormatError Number
  | none => .error (.badOperand function .missing)
  | some (.number x) => .ok x
  | some (.string s) =>
    match Number.read? (Text.trim s) with
    | some x => .ok x
    | none => .error (.badOperand function (.notANumber s))
  | some v => .error (.badOperand function (.notANumber v.display))

/-- The number that an option holds or spells, if it is a whole number from 0 to 20. -/
def digitCount? (v : Value) : Option Nat :=
  let x? := match v with
    | .number x => some x
    | .string s => Number.read? (Text.trim s)
    | _ => none
  match x? with
  | none => none
  | some x =>
    if x.isIntegral then
      match x.toInt? with
      | some n => if 0 ≤ n ∧ n ≤ 20 then some n.toNat else none
      | none => none
    else none

def digitsOption (function : String) (options : Options) (name : String) :
    Except FormatError (Option Nat) :=
  match options.find? name with
  | none => .ok none
  | some v =>
    match digitCount? v with
    | some n => .ok (some n)
    | none => .error (.badOption function name .notADigitCount)

/-- Whether the option `select` asks for exact matches only. -/
def selectOption (function : String) (options : Options) : Except FormatError Bool :=
  match options.find? "select" with
  | none => .ok false
  | some v =>
    if v.display = "exact" then .ok true
    else if v.display = "plural" ∨ v.display = "ordinal" then .ok false
    else .error (.badOption function "select" (.unsupportedSelection v.display))

/-- A number as the localizer writes it. -/
def resolveNumber (call : FunctionCall) (x : Number) (limits : FractionLimits)
    (exactOnly : Bool) : Resolved :=
  let text := call.localizer.numberText call.locale x limits
  ⟨"number", some (.number x), text, some (SubPart.ofNumberText text), .number x exactOnly⟩

def number : MessageFunction := fun call options operand => do
  let x ← numericOperand call.name operand
  let minimum ← digitsOption call.name options "minimumFractionDigits"
  let maximum ← digitsOption call.name options "maximumFractionDigits"
  let exactOnly ← selectOption call.name options
  return resolveNumber call x ⟨minimum, maximum⟩ exactOnly

/-- The number without its fraction. -/
def integer : MessageFunction := fun call options operand => do
  let x ← numericOperand call.name operand
  let exactOnly ← selectOption call.name options
  return resolveNumber call x.trunc ⟨none, some 0⟩ exactOnly

/-! ## Dates and times -/

/-- What of an instant is shown. -/
inductive DateTimeField where
  | date
  | time
  | both
  deriving DecidableEq, Repr

/-- What the runs of digits stand for, in the order in which they come. -/
def DateTimeField.names : DateTimeField → List String
  | .date => ["year", "month", "day"]
  | .time => ["hour", "minute", "second"]
  | .both => ["year", "month", "day", "hour", "minute", "second"]

def styleOption (function : String) (options : Options) (name : String) :
    Except FormatError (Option DateTimeStyle) :=
  match options.find? name with
  | none => .ok none
  | some v =>
    match DateTimeStyle.ofName? v.display with
    | some style => .ok (some style)
    | none => .error (.badOption function name (.unsupportedStyle v.display))

/-- The instant of a value: a number counts milliseconds since 1970, a text is a timestamp or
a plain date. -/
def instant? : Value → Option Instant
  | .number x => x.toInt?.bind Instant.ofMillis?
  | .string s => Instant.read? (Text.trim s)
  | _ => none

def instantOperand (function : String) : Option Value → Except FormatError Instant
  | none => .error (.badOperand function .missing)
  | some v =>
    match instant? v with
    | some t => .ok t
    | none => .error (.badOperand function (.notADate v.display))

/-- An instant as the localizer writes it. Its value is the timestamp. -/
def resolveInstant (call : FunctionCall) (t : Instant) (styles : DateTimeStyles)
    (field : DateTimeField) : Resolved :=
  let write := match field with
    | .date => call.localizer.dateText
    | .time => call.localizer.timeText
    | .both => call.localizer.dateTimeText
  let text := write call.locale t styles
  ⟨"datetime", some (.string t.timestamp), text, some (SubPart.ofDateText text field.names), .none⟩

/-- A date style alone shows the date, a time style alone the time, anything else both. -/
def datetime : MessageFunction := fun call options operand => do
  let dateStyle ← styleOption call.name options "dateStyle"
  let timeStyle ← styleOption call.name options "timeStyle"
  let field := match dateStyle, timeStyle with
    | some _, none => DateTimeField.date
    | none, some _ => .time
    | _, _ => .both
  let t ← instantOperand call.name operand
  return resolveInstant call t ⟨dateStyle, timeStyle⟩ field

def date : MessageFunction := fun call options operand => do
  let style ← styleOption call.name options "style"
  let t ← instantOperand call.name operand
  return resolveInstant call t ⟨style, none⟩ .date

def time : MessageFunction := fun call options operand => do
  let style ← styleOption call.name options "style"
  let t ← instantOperand call.name operand
  return resolveInstant call t ⟨none, style⟩ .time

end Phrasebook.MessageFunction

namespace Phrasebook

def FunctionTable.builtins : FunctionTable :=
  Table.ofList [("string", MessageFunction.string), ("number", MessageFunction.number),
    ("integer", MessageFunction.integer), ("datetime", MessageFunction.datetime),
    ("date", MessageFunction.date), ("time", MessageFunction.time)]

end Phrasebook
