import Phrasebook.Calendar
import Phrasebook.SubPart

/-!
Localizers: what depends on the locale when numbers and dates are formatted.

A `Localizer` writes numbers and dates and gives the plural category of a number.
`Localizer.basic` serves every locale alike: plain decimal digits, dates in the forms of
ISO 8601, and the category `other`.
-/

namespace Phrasebook

inductive PluralCategory where
  | zero
  | one
  | two
  | few
  | many
  | other
  deriving DecidableEq, Repr

/-- The name by which a variant key asks for a category. -/
def PluralCategory.name : PluralCategory → String
  | .zero => "zero"
  | .one => "one"
  | .two => "two"
  | .few => "few"
  | .many => "many"
  | .other => "other"

/-- How many digits a number's fraction has. -/
structure FractionLimits where
  minimum : Option Nat := none
  maximum : Option Nat := none
  deriving DecidableEq, Repr

inductive DateTimeStyle where
  | full
  | long
  | medium
  | short
  deriving DecidableEq, Repr

def DateTimeStyle.ofName? : String → Option DateTimeStyle
  | "full" => some .full
  | "long" => some .long
  | "medium" => some .medium
  | "short" => some .short
  | _ => none

structure DateTimeStyles where
  date : Option DateTimeStyle := none
  time : Option DateTimeStyle := none
  deriving DecidableEq, Repr

namespace Number

/-- A finite number with limits on its fraction. With a maximum, which counts for at least the
minimum, the number is rounded to it and zeros beyond the minimum are dropped; without one,
the shortest decimal gets zeros up to the minimum. -/
def limited (limits : FractionLimits) (negative : Bool) (m : Nat) : Decimal :=
  let minimum := limits.minimum.getD 0
  match limits.maximum with
  | none => (shown negative m).padTo minimum
  | some maximum =>
    let d := (fixed negative m (max maximum minimum)).trimTo minimum
    if d.coefficient = 0 ∧ d.places = 0 then { d with negative := false } else d

/-- The text of a number in plain decimal digits. -/
def plainText (limits : FractionLimits) : Number → String
  | .finite s m => (limited limits s m).text
  | x => x.display

end Number

/-- The time of an instant; the short style has no seconds. -/
def Instant.styledTime (t : Instant) (styles : DateTimeStyles) : String :=
  if styles.time = some .short then t.minuteText else t.timeText

/-- The pieces of formatting that depend on the locale, which each gets by name. -/
structure Localizer where
  pluralCategory : String → Number → PluralCategory
  numberText : String → Number → FractionLimits → String
  dateText : String → Instant → DateTimeStyles → String := fun _ t _ => t.dateText
  timeText : String → Instant → DateTimeStyles → String := fun _ t styles => t.styledTime styles
  dateTimeText : String → Instant → DateTimeStyles → String :=
    fun locale t styles => dateText locale t styles ++ " " ++ timeText locale t styles

/-- Serves every locale alike. -/
def Localizer.basic : Localizer where
  pluralCategory _ _ := .other
  numberText _ x limits := x.plainText limits

end Phrasebook
