import Phrasebook.Table

/-!
Views: the tree of elements and texts that a message is rendered to.

`View.html` writes a view with text and attribute values escaped; a fragment has no tag of its
own.
-/

namespace Phrasebook

/-- A node of a rendered message. -/
inductive View where
  | text (s : String)
  | element (tag : String) (attributes : List (String × String)) (children : List View)
  | fragment (children : List View)
  deriving Inhabited, Repr

namespace View

/-- Sets an attribute of an element; other views stay as they are. -/
def setAttribute (v : View) (name value : String) : View :=
  match v with
  | .element tag attributes children =>
    .element tag (Table.insert attributes name value) children
  | v => v

def attribute? (v : View) (name : String) : Option String :=
  match v with
  | .element _ attributes _ => Table.find? attributes name
  | _ => none

def children : View → List View
  | .text _ => []
  | .element _ _ children => children
  | .fragment children => children

/-! ## Text and HTML -/

def escapeChar (c : Char) : List Char :=
  match c with
  | '<' => ['&', 'l', 't', ';']
  | '>' => ['&', 'g', 't', ';']
  | '&' => ['&', 'a', 'm', 'p', ';']
  | '"' => ['&', 'q', 'u', 'o', 't', ';']
  | '\'' => ['&', '#', '3', '9', ';']
  | c => [c]

/-- A text with its special characters written as references. -/
def escape (s : String) : String := String.ofList (s.toList.flatMap escapeChar)

def attributesHtml : List (String × String) → String
  | [] => ""
  | (name, value) :: rest => " " ++ name ++ "=\"" ++ escape value ++ "\"" ++ attributesHtml rest

mutual

/-- The text of a view and of all views in it. -/
def textContent : View → String
  | .text s => s
  | .element _ _ children => textContents children
  | .fragment children => textContents children

def textContents : List View → String
  | [] => ""
  | v :: rest => v.textContent ++ textContents rest

end

mutual

def html : View → String
  | .text s => escape s
  | .element tag attributes children =>
    "<" ++ tag ++ attributesHtml attributes ++ ">" ++ htmls children ++ "</" ++ tag ++ ">"
  | .fragment children => htmls children

def htmls : List View → String
  | [] => ""
  | v :: rest => v.html ++ htmls rest

end

/-- What a view adds to a row of views: a fragment adds its children. -/
def spliced : View → List View
  | .fragment children => children
  | v => [v]

end View

end Phrasebook
