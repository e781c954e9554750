import Phrasebook.Part
import Phrasebook.Text.Blank

/-!
Trees: the nesting of markup, rebuilt from a flat sequence of parts.

`Node.ofParts` reads the parts from left to right and keeps the markup that is open. A closing
marker that does not belong to the innermost open markup is dropped, and markup that is never
closed ends with the parts. `Node.flatten` is the text of a tree.
-/

namespace Phrasebook

inductive Node where
  | text (s : String)
  | variable (name : Option String) (value : Option Value) (shown : String)
  | markup (name : String) (options : Options) (children : List Node)
  deriving Inhabited

namespace Node

/-! ## Names of variables -/

def isWordChar (c : Char) : Bool := c.isAlphanum || c == '_'

/-- The first word in a text that starts with a letter or an underscore. -/
def firstWord? (cs : List Char) : Option String :=
  match cs.dropWhile fun c => !(c.isAlpha || c == '_') with
  | [] => none
  | word => some (String.ofList (word.takeWhile isWordChar))

/-- The name that a placeholder goes by: the word after the sigil, or else the first word. -/
def variableName? (source : String) : Option String :=
  let cs := Text.trimChars source.toList
  let word := match cs with
    | '$' :: rest => rest.takeWhile isWordChar
    | _ => []
  if word.isEmpty then firstWord? cs else some (String.ofList word)

def ofExpression (e : ExpressionPart) : Node :=
  .variable (e.source.bind variableName?) e.value e.text

/-! ## Nesting -/

/-- Markup that is open, with its children so far. -/
structure Frame where
  name : String
  options : Options
  children : List Node

def Frame.close (frame : Frame) : Node := .markup frame.name frame.options frame.children

/-- A tree in the making: the nodes outside all open markup, and the open markup, the
innermost first. -/
structure Builder where
  nodes : List Node := []
  frames : List Frame := []

namespace Builder

def add (b : Builder) (node : Node) : Builder :=
  match b.frames with
  | [] => { b with nodes := b.nodes ++ [node] }
  | frame :: outer =>
    { b with frames := { frame with children := frame.children ++ [node] } :: outer }

def enter (b : Builder) (name : String) (options : Options) : Builder :=
  { b with frames := ⟨name, options, []⟩ :: b.frames }

/-- Closes the innermost open markup, if it has the name. -/
def leave (b : Builder) (name : String) : Builder :=
  match b.frames with
  | [] => b
  | frame :: outer =>
    if frame.name = name then { b with frames := outer }.add frame.close else b

def read (b : Builder) : Part → Builder
  | .text s => b.add (.text s)
  | .isolation _ => b
  | .markup .opening name options => b.enter name options
  | .markup .closing name _ => b.leave name
  | .markup .standalone name options => b.add (.markup name options [])
  | .expression e => b.add (ofExpression e)

/-- Puts each open markup into the one around it, and the outermost after the nodes. -/
def closeAll (nodes : List Node) : List Frame → List Node
  | [] => nodes
  | [frame] => nodes ++ [frame.close]
  | frame :: outer :: rest =>
    closeAll nodes ({ outer with children := outer.children ++ [frame.close] } :: rest)
termination_by frames => frames.length

/-- The tree, with all markup closed. -/
def finish (b : Builder) : List Node := closeAll b.nodes b.frames

end Builder

def ofParts (parts : List Part) : List Node := (parts.foldl Builder.read {}).finish

/-! ## Text -/

mutual

/-- The text of a node; markup has the text of its children. -/
def textOf : Node → String
  | .text s => s
  | .variable _ _ shown => shown
  | .markup _ _ children => flatten children

/-- The text of nodes in a row. -/
def flatten : List Node → String
  | [] => ""
  | node :: rest => node.textOf ++ flatten rest

end

end Node

end Phrasebook
