import Phrasebook.Message.Parse

/-!
The grammar of messages: which messages have a written form, and how they may be written.

`Message.WellFormed` says what the source of a message can express. `Message.Written` relates a
message to its written forms: blanks may stand wherever the grammar has them, a literal may stand
between bars or, if its characters allow, without them, a character that may be escaped need not
be where it can stand for itself, and attributes may follow anywhere they are dropped. Spans say
where a message was read from and are no part of what is written; `Message.unplaced` forgets them.
-/

namespace Phrasebook

/-! ## Names -/

/-- A character that starts a name, and characters that continue one. -/
def IsName (s : String) : Prop :=
  ∃ c cs, s.toList = c :: cs ∧ isNameStart c = true ∧ ∀ d ∈ cs, isNameChar d = true

/-- A name, or two with a colon between them. -/
def IsIdentifier (s : String) : Prop :=
  IsName s ∨ ∃ space name, IsName space ∧ IsName name ∧ s = space ++ ":" ++ name

/-! ## Well-formed messages -/

/-- A variable is named by a name. -/
def Operand.WellFormed : Operand → Prop
  | .variable name => IsName name
  | .literal _ => True

/-- Options are named by identifiers that differ. -/
structure OptionsWellFormed (options : List OptionEntry) : Prop where
  names : ∀ o ∈ options, IsIdentifier o.name
  values : ∀ o ∈ options, o.value.WellFormed
  distinct : (options.map (·.name)).Nodup

structure FunctionUse.WellFormed (f : FunctionUse) : Prop where
  name : IsIdentifier f.name
  options : OptionsWellFormed f.options

/-- An expression has an operand or a function. -/
structure Expression.WellFormed (e : Expression) : Prop where
  operand : ∀ o, e.operand = some o → o.WellFormed
  function : ∀ f, e.function = some f → f.WellFormed
  nonempty : e.operand.isSome ∨ e.function.isSome

structure Markup.WellFormed (m : Markup) : Prop where
  name : IsIdentifier m.name
  options : OptionsWellFormed m.options

/-- A text is not empty. -/
def PatternItem.WellFormed : PatternItem → Prop
  | .text s => s ≠ ""
  | .expression e => e.WellFormed
  | .markup m => m.WellFormed

def PatternItem.IsText : PatternItem → Prop
  | .text _ => True
  | _ => False

/-- No text stands next to another. -/
def TextsParted : Pattern → Prop
  | a :: b :: rest => ¬ (a.IsText ∧ b.IsText) ∧ TextsParted (b :: rest)
  | _ => True

structure PatternWellFormed (p : Pattern) : Prop where
  items : ∀ item ∈ p, item.WellFormed
  parted : TextsParted p

/-- An `input` declaration declares its operand. -/
structure Declaration.WellFormed (d : Declaration) : Prop where
  name : IsName d.name
  expression : d.expression.WellFormed
  input : d.kind = .input → d.expression.operand = some (.variable d.name)

/-- There are selectors, each variant has a key for each of them, and one variant catches all. -/
structure Matcher.WellFormed (m : Matcher) : Prop where
  nonempty : m.selectors ≠ []
  selectors : ∀ s ∈ m.selectors, IsName s
  keys : ∀ v ∈ m.variants, v.keys.length = m.selectors.length
  patterns : ∀ v ∈ m.variants, PatternWellFormed v.pattern
  catchAll : ∃ v ∈ m.variants, ∀ k ∈ v.keys, k = .catchAll

def Body.WellFormed : Body → Prop
  | .pattern p => PatternWellFormed p
  | .choice m => m.WellFormed

/-- Declared names differ. -/
structure Message.WellFormed (m : Message) : Prop where
  declarations : ∀ d ∈ m.declarations, d.WellFormed
  distinct : (m.declarations.map (·.name)).Nodup
  body : m.body.WellFormed

/-! ## Pieces -/

/-- Blanks in a row, perhaps none. -/
def Blanks (cs : List Char) : Prop := ∀ c ∈ cs, isBlank c = true

/-- Things in a row, each in one of its written forms. -/
inductive WrittenAll {α : Type} (Written : α → List Char → Prop) : List α → List Char → Prop
  | nil : WrittenAll Written [] []
  | cons {a : α} {as : List α} {ws vs : List Char} :
      Written a ws → WrittenAll Written as vs → WrittenAll Written (a :: as) (ws ++ vs)

/-- Characters, some of them after a backslash; those not in a class always are. -/
inductive Escaped (plain : Char → Prop) : List Char → List Char → Prop
  | nil : Escaped plain [] []
  | plain {c : Char} {cs ws : List Char} :
      plain c → Escaped plain cs ws → Escaped plain (c :: cs) (c :: ws)
  | escaped {c : Char} {cs ws : List Char} :
      isEscapable c = true → Escaped plain cs ws → Escaped plain (c :: cs) ('\\' :: c :: ws)

/-- What may stand for itself between bars. -/
def PlainInBars (c : Char) : Prop := c ≠ '|' ∧ c ≠ '\\'

/-- What may stand for itself in the text of a pattern. -/
def PlainInText (c : Char) : Prop := c ≠ '\x7b' ∧ c ≠ '\x7d' ∧ c ≠ '\\'

/-- A literal, between bars or, if it begins with a character of a class, without them. -/
inductive LiteralWritten (start : Char → Bool) : String → List Char → Prop
  | bars {s : String} {ws : List Char} :
      Escaped PlainInBars s.toList ws → LiteralWritten start s ('|' :: (ws ++ ['|']))
  | bare {s : String} {c : Char} {cs : List Char} :
      s.toList = c :: cs → start c = true → (∀ d ∈ c :: cs, isLiteralChar d = true) →
        LiteralWritten start s s.toList

/-- A variable after its sigil, or a literal. -/
inductive OperandWritten (start : Char → Bool) : Operand → List Char → Prop
  | sigil {name : String} : OperandWritten start (.variable name) ('$' :: name.toList)
  | literal {s : String} {ws : List Char} :
      LiteralWritten start s ws → OperandWritten start (.literal s) ws

/-! ## Placeholders -/

/-- An option after blanks, with blanks around the equals sign. -/
inductive OptionWritten : OptionEntry → List Char → Prop
  | mk {o : OptionEntry} {b b₁ b₂ ws : List Char} :
      Blanks b → b ≠ [] → Blanks b₁ → Blanks b₂ → OperandWritten isLiteralChar o.value ws →
        OptionWritten o (b ++ (o.name.toList ++ (b₁ ++ '=' :: (b₂ ++ ws))))

/-- An attribute, with a value or without one. -/
inductive AttributeWritten : Unit → List Char → Prop
  | bare {name : String} {b : List Char} :
      Blanks b → IsIdentifier name → AttributeWritten () (b ++ '@' :: name.toList)
  | valued {name value : String} {b b₁ b₂ ws : List Char} :
      Blanks b → IsIdentifier name → Blanks b₁ → Blanks b₂ →
        LiteralWritten isLiteralChar value ws →
          AttributeWritten () (b ++ '@' :: (name.toList ++ (b₁ ++ '=' :: (b₂ ++ ws))))

/-- Attributes and blanks, as they may stand at the end of a placeholder. -/
inductive EndingWritten : List Char → Prop
  | mk {attributes : List Unit} {ws b : List Char} :
      WrittenAll AttributeWritten attributes ws → Blanks b → EndingWritten (ws ++ b)

inductive FunctionWritten : FunctionUse → List Char → Prop
  | mk {f : FunctionUse} {ws : List Char} :
      WrittenAll OptionWritten f.options ws → FunctionWritten f (':' :: (f.name.toList ++ ws))

/-- What an expression names: an operand, a function, or both with blanks between them. -/
inductive CallWritten : Option Operand → Option FunctionUse → List Char → Prop
  | operand {o : Operand} {ws : List Char} :
      OperandWritten isLiteralStart o ws → CallWritten (some o) none ws
  | function {f : FunctionUse} {ws : List Char} :
      FunctionWritten f ws → CallWritten none (some f) ws
  | both {o : Operand} {f : FunctionUse} {ws b vs : List Char} :
      OperandWritten isLiteralStart o ws → Blanks b → b ≠ [] → FunctionWritten f vs →
        CallWritten (some o) (some f) (ws ++ (b ++ vs))

inductive ExpressionWritten : Expression → List Char → Prop
  | mk {e : Expression} {b ws vs : List Char} :
      Blanks b → CallWritten e.operand e.function ws → EndingWritten vs →
        ExpressionWritten e ('\x7b' :: (b ++ (ws ++ (vs ++ ['\x7d']))))

/-- What opens the braces of markup, and what closes them. -/
def MarkupKind.signs : MarkupKind → Char × List Char
  | .opening => ('#', ['\x7d'])
  | .standalone => ('#', ['/', '\x7d'])
  | .closing => ('/', ['\x7d'])

inductive MarkupWritten : Markup → List Char → Prop
  | mk {m : Markup} {b ws vs : List Char} :
      Blanks b → WrittenAll OptionWritten m.options ws → EndingWritten vs →
        MarkupWritten m
          ('\x7b' :: (b ++ m.kind.signs.1 :: (m.name.toList ++ (ws ++ (vs ++ m.kind.signs.2)))))

/-! ## Messages -/

inductive ItemWritten : PatternItem → List Char → Prop
  | text {s : String} {ws : List Char} : Escaped PlainInText s.toList ws → ItemWritten (.text s) ws
  | expression {e : Expression} {ws : List Char} :
      ExpressionWritten e ws → ItemWritten (.expression e) ws
  | markup {m : Markup} {ws : List Char} : MarkupWritten m ws → ItemWritten (.markup m) ws

/-- A pattern between double braces. -/
inductive QuotedWritten : Pattern → List Char → Prop
  | mk {p : Pattern} {ws : List Char} :
      WrittenAll ItemWritten p ws → QuotedWritten p ('\x7b' :: '\x7b' :: (ws ++ ['\x7d', '\x7d']))

/-- A declaration after blanks. -/
inductive DeclarationWritten : Declaration → List Char → Prop
  | input {name : String} {e : Expression} {b b₁ ws : List Char} :
      Blanks b → Blanks b₁ → ExpressionWritten e ws →
        DeclarationWritten ⟨.input, name, e⟩ (b ++ (".input".toList ++ (b₁ ++ ws)))
  | binding {name : String} {e : Expression} {b b₁ b₂ b₃ ws : List Char} :
      Blanks b → Blanks b₁ → b₁ ≠ [] → Blanks b₂ → Blanks b₃ → ExpressionWritten e ws →
        DeclarationWritten ⟨.binding, name, e⟩
          (b ++ (".local".toList ++ (b₁ ++ '$' :: (name.toList ++ (b₂ ++ '=' :: (b₃ ++ ws))))))

/-- A selector after blanks. -/
inductive SelectorWritten : String → List Char → Prop
  | mk {name : String} {b : List Char} :
      Blanks b → b ≠ [] → SelectorWritten name (b ++ '$' :: name.toList)

inductive KeyText : VariantKey → List Char → Prop
  | catchAll : KeyText .catchAll ['*']
  | literal {s : String} {ws : List Char} :
      LiteralWritten isLiteralStart s ws → KeyText (.literal s) ws

/-- A key after blanks. -/
inductive KeyWritten : VariantKey → List Char → Prop
  | mk {k : VariantKey} {b ws : List Char} :
      Blanks b → b ≠ [] → KeyText k ws → KeyWritten k (b ++ ws)

inductive VariantWritten : Variant → List Char → Prop
  | mk {v : Variant} {ws b vs : List Char} :
      WrittenAll KeyWritten v.keys ws → Blanks b → QuotedWritten v.pattern vs →
        VariantWritten v (ws ++ (b ++ vs))

inductive BodyWritten : Body → List Char → Prop
  | pattern {p : Pattern} {ws : List Char} : QuotedWritten p ws → BodyWritten (.pattern p) ws
  | choice {m : Matcher} {ws vs : List Char} :
      WrittenAll SelectorWritten m.selectors ws → WrittenAll VariantWritten m.variants vs →
        BodyWritten (.choice m) (".match".toList ++ (ws ++ vs))

/-- A message in its complex form, with declarations or a body in braces, or in its simple form,
a pattern alone. The simple form must not be taken for the complex one, which a full stop after
blanks begins. -/
inductive Message.Written : Message → List Char → Prop
  | complex {m : Message} {ws b vs b₁ : List Char} :
      WrittenAll DeclarationWritten m.declarations ws → Blanks b → BodyWritten m.body vs →
        Blanks b₁ → Written m (ws ++ (b ++ (vs ++ b₁)))
  | simple {p : Pattern} {ws : List Char} :
      WrittenAll ItemWritten p ws → (∀ b rest, Blanks b → ws ≠ b ++ '.' :: rest) →
        Written ⟨[], .pattern p⟩ ws

/-! ## Places -/

/-- The span of nothing in particular. -/
def Span.nowhere : Span := ⟨0, 0, 0, 0⟩

def Expression.unplaced (e : Expression) : Expression := { e with span := .nowhere }

def Markup.unplaced (m : Markup) : Markup := { m with span := .nowhere }

def PatternItem.unplaced : PatternItem → PatternItem
  | .text s => .text s
  | .expression e => .expression e.unplaced
  | .markup m => .markup m.unplaced

def Variant.unplaced (v : Variant) : Variant :=
  { v with pattern := v.pattern.map PatternItem.unplaced, span := .nowhere }

def Matcher.unplaced (m : Matcher) : Matcher :=
  ⟨m.selectors, m.variants.map Variant.unplaced, .nowhere⟩

def Body.unplaced : Body → Body
  | .pattern p => .pattern (p.map PatternItem.unplaced)
  | .choice m => .choice m.unplaced

def Declaration.unplaced (d : Declaration) : Declaration :=
  { d with expression := d.expression.unplaced }

/-- The message without the places it was read from. -/
def Message.unplaced (m : Message) : Message :=
  ⟨m.declarations.map Declaration.unplaced, m.body.unplaced⟩

end Phrasebook
