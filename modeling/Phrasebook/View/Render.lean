import Phrasebook.Tree
import Phrasebook.View.Basic

/-!
Rendering: a message's tree turned into views.

Slots replace variables and markup by name, for one rendering; markup renderers serve all
renderings. `Node.renderAll` looks for a slot first, then for a renderer, and wraps other
markup in a plain element. The first error ends the rendering.
-/

namespace Phrasebook

inductive RenderError where
  | slot (name message : String)
  | markup (name message : String)
  deriving DecidableEq, Repr

def RenderError.message : RenderError → String
  | .slot name message => "slot '" ++ name ++ "' failed: " ++ message
  | .markup name message => "markup renderer '" ++ name ++ "' failed: " ++ message

/-- What a slot gets: the value of a variable, or the text and the rendered children of
markup. -/
structure SlotProps where
  name : String
  value : Value
  children : List View := []
  options : Options := []

/-- A property by name; the slot's own name and `value` both mean the value. -/
def SlotProps.get? (props : SlotProps) (key : String) : Option Value :=
  if key = props.name ∨ key = "value" then some props.value else props.options.find? key

/-- A replacement for a variable or for markup. -/
abbrev Slot := SlotProps → Except RenderError View

/-- Slots by the names that they replace. -/
abbrev Slots := Table Slot

structure MarkupInput where
  children : List View
  options : Options

abbrev MarkupRenderer := MarkupInput → Except RenderError View

/-- Markup renderers by the names of markup. -/
abbrev MarkupTable := Table MarkupRenderer

namespace MarkupTable

/-- The text without its first and last character, if both are this quote. One quote alone
leaves nothing. -/
def unquote? (quote : Char) (cs : List Char) : Option (List Char) :=
  if cs.head? = some quote && cs.getLast? = some quote then some cs.tail.dropLast else none

/-- The target of a link: white space around it and one layer of matching quotes are removed;
what is missing, blank or no text becomes a number sign. -/
def linkTarget (target? : Option Value) : String :=
  match target? with
  | some (.string raw) =>
    let cs := Text.trimChars raw.toList
    let target := match (unquote? '"' cs).or (unquote? '\'' cs) with
      | some inner => Text.trimChars inner
      | none => cs
    if target.isEmpty then "#" else String.ofList target
  | _ => "#"

def wrapIn (tag : String) : MarkupRenderer := fun input => .ok (.element tag [] input.children)

def link : MarkupRenderer := fun input =>
  .ok (.element "a" [("href", linkTarget (input.options.find? "to"))] input.children)

def builtins : MarkupTable :=
  Table.ofList [("bold", wrapIn "strong"), ("italic", wrapIn "em"), ("underline", wrapIn "u"),
    ("code", wrapIn "code"), ("mark", wrapIn "mark"), ("highlight", wrapIn "mark"),
    ("link", link)]

end MarkupTable

namespace Node

/-- The element around markup that nothing else renders. -/
def defaultTag : String := "span"

mutual

def render (slots : Slots) (markups : MarkupTable) : Node → Except RenderError (List View)
  | .text s => .ok [.text s]
  | .variable name value shown =>
    match name.bind fun n => (slots.find? n).map (n, ·) with
    | none => .ok [.text shown]
    | some (n, slot) => do
      let v ← slot { name := n, value := value.getD .null }
      return v.spliced
  | .markup name options children => do
    let rendered ← renderAll slots markups children
    match slots.find? name, markups.find? name with
    | some slot, _ => do
      let v ← slot ⟨name, .string (flatten children), rendered, options⟩
      return v.spliced
    | none, some renderer => do
      let v ← renderer ⟨rendered, options⟩
      return [v]
    | none, none => return [.element defaultTag [] rendered]

def renderAll (slots : Slots) (markups : MarkupTable) :
    List Node → Except RenderError (List View)
  | [] => .ok []
  | node :: rest => do
    let first ← node.render slots markups
    let others ← renderAll slots markups rest
    return first ++ others

end

end Node

end Phrasebook
