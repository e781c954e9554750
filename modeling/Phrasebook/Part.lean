import Phrasebook.Message.Basic
import Phrasebook.SubPart

/-!
Parts: a formatted message as a flat sequence of pieces.

Markup appears as markers that open and close; a placeholder's value appears as an
`ExpressionPart`, between marks of direction when the message isolates its placeholders.
-/

namespace Phrasebook

/-- The value of a placeholder. The kind names what formatted it, or is `fallback`. -/
structure ExpressionPart where
  kind : String
  source : Option String := none
  locale : Option String := none
  value : Option Value := none
  parts : Option (List SubPart) := none
  deriving Inhabited

/-- A piece of a formatted message. -/
inductive Part where
  | text (s : String)
  | markup (kind : MarkupKind) (name : String) (options : Options)
  | isolation (mark : String)
  | expression (e : ExpressionPart)
  deriving Inhabited

/-- The mark that opens an isolated placeholder: first strong isolate. -/
def isolateStart : String := "\u2068"

/-- The mark that closes an isolated placeholder: pop directional isolate. -/
def isolateEnd : String := "\u2069"

namespace Part

def isMarkup : Part → Bool
  | .markup .. => true
  | _ => false

end Part

namespace ExpressionPart

/-- A placeholder's source in braces, as it shows when there is nothing better. -/
def echo (e : ExpressionPart) : String :=
  match e.source with
  | some source => "\x7b" ++ source ++ "\x7d"
  | none => ""

/-- The texts of sub-parts in a row, if each has a value. -/
def joined? : List SubPart → Option String
  | [] => some ""
  | p :: rest =>
    match p.value, joined? rest with
    | some v, some tail => some (v.display ++ tail)
    | _, _ => none

/-- What an expression part shows: its sub-parts if it has a list of them, else its value,
else its source in braces. -/
def text (e : ExpressionPart) : String :=
  match e.parts, e.value with
  | some parts, _ => (joined? parts).getD e.echo
  | none, some v => v.display
  | none, none => e.echo

end ExpressionPart

end Phrasebook
