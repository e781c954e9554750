import Phrasebook.Composer
import Phrasebook.View.Render

/-!
Message views: a message of a composer rendered inside an element.

An `Instance` is a composer with the markup renderers of its messages. A `Session` holds
instances by name, one of which may be installed to serve those who name none.
-/

namespace Phrasebook

/-- A composer and the renderers of the markup in its messages. -/
structure Instance where
  composer : Composer
  markups : MarkupTable

namespace Instance

def ofSettings (settings : ComposerSettings) (markups : MarkupTable) :
    Except SetupError Instance := do
  let composer ← Composer.ofSettings settings
  return ⟨composer, MarkupTable.builtins.insertAll markups⟩

def withComposer {α : Type} (i : Instance) (act : Composer → α × Composer) : α × Instance :=
  let (a, composer) := act i.composer
  (a, { i with composer })

end Instance

structure MessageView where
  keypath : Option String := none
  /-- Another name for the key, for when `keypath` is not given. -/
  path : Option String := none
  arguments : Arguments := []
  tag : String := Node.defaultTag
  slots : Slots := []

namespace MessageView

def key? (m : MessageView) : Option String := m.keypath.or m.path

def wrap (m : MessageView) (children : List View) : View := .element m.tag [] children

/-- The message as plain text inside its element. -/
def plain (m : MessageView) (key : String) (i : Instance) : View × Instance :=
  let (s, i) := i.withComposer (·.translate key m.arguments)
  (m.wrap [.text s], i)

/-- The message inside its element. Where there is nothing to show, or rendering fails, the
message shows as plain text. -/
def render (m : MessageView) (i : Instance) : View × Instance :=
  match m.key? with
  | none => (m.wrap [], i)
  | some key =>
    match i.withComposer (·.translateToParts key m.arguments) with
    | ([], i) => m.plain key i
    | (parts, i) =>
      match Node.renderAll m.slots i.markups (Node.ofParts parts) with
      | .ok [] => m.plain key i
      | .ok children => (m.wrap children, i)
      | .error _ => m.plain key i

end MessageView

inductive UseError where
  | noInstance
  deriving DecidableEq, Repr

def UseError.message : UseError → String
  | .noInstance => "no mf2 instance was passed explicitly or installed on this thread"

/-- Instances by name, and the name of the installed one. -/
structure Session where
  instances : Table Instance := []
  installed : Option String := none

namespace Session

def install (s : Session) (name : String) : Session := { s with installed := some name }

def uninstall (s : Session) : Session := { s with installed := none }

def installed? (s : Session) : Option Instance := s.installed.bind s.instances.find?

/-- Uses the instance of a name or, without a name, the installed one. -/
def use {α : Type} (s : Session) (name : Option String) (act : Instance → α × Instance) :
    Except UseError (α × Session) :=
  match name.or s.installed with
  | none => .error .noInstance
  | some name =>
    match s.instances.find? name with
    | none => .error .noInstance
    | some i =>
      let (a, i) := act i
      .ok (a, { s with instances := s.instances.insert name i })

end Session

end Phrasebook
