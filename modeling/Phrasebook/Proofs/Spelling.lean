import Phrasebook.Proofs.Correspondence
import Phrasebook.Proofs.Tables
import Phrasebook.Proofs.TreeText

/-!
The parts of a message spell its text.

A resolved value carries its text beside the value and the sub-parts that its part shows
instead. With the builtin functions, and functions that make a text, the two always agree: this
holds of each function's result, is kept by declarations, and so holds of each placeholder that
is shown. From that `format_eq_shownAll` compares the text with the parts, and
`format_unmarked_eq_flatten` with the tree of the parts.
-/

namespace Phrasebook

/-! ## Sub-parts -/

namespace ExpressionPart

theorem joined?_nil : joined? [] = some "" := rfl

theorem joined?_cons_ofChars (kind : String) (cs : List Char) (rest : List SubPart) :
    joined? (SubPart.ofChars kind cs :: rest) =
      (joined? rest).map fun tail => String.ofList cs ++ tail := by
  cases h : joined? rest <;> simp [joined?, SubPart.ofChars, Value.display, h]

theorem joined?_ofUnsigned (cs : List Char) :
    joined? (SubPart.ofUnsigned cs) = some (String.ofList cs) := by
  have hcut := List.takeWhile_append_dropWhile (p := (· != '.')) (l := cs)
  unfold SubPart.ofUnsigned
  split
  · next h =>
    rw [h, List.append_nil] at hcut
    rw [joined?_cons_ofChars, hcut, joined?_nil, Option.map_some, String.append_empty]
  · next point fraction h =>
    rw [h, ← List.singleton_append] at hcut
    simp only [joined?_cons_ofChars, joined?_nil, Option.map_some, String.append_empty]
    rw [← String.ofList_append, ← String.ofList_append, hcut]

theorem joined?_ofNumberText (s : String) : joined? (SubPart.ofNumberText s) = some s := by
  unfold SubPart.ofNumberText
  split
  · next rest h =>
    simp only [joined?_cons_ofChars, joined?_ofUnsigned, Option.map_some]
    rw [← String.ofList_append, List.singleton_append, ← h, String.ofList_toList]
  · rw [joined?_ofUnsigned, String.ofList_toList]

theorem joined?_nameRuns (fields : List String) (runs : List (List Char)) :
    joined? (SubPart.nameRuns fields runs) = some (String.ofList runs.flatten) := by
  induction runs generalizing fields with
  | nil => rfl
  | cons run rest ih =>
    rw [SubPart.nameRuns]
    split <;> simp [joined?_cons_ofChars, ih, String.ofList_append]

theorem joined?_ofDateText (s : String) (fields : List String) :
    joined? (SubPart.ofDateText s fields) = some s := by
  rw [SubPart.ofDateText, joined?_nameRuns, SubPart.flatten_runs, String.ofList_toList]

end ExpressionPart

/-! ## Values -/

namespace Resolved

/-- The part of this value, for a placeholder of some source, shows the value's text. -/
def SpelledAt (r : Resolved) (source : String) : Prop :=
  ExpressionPart.text { kind := r.kind, source, value := r.value, parts := r.parts } = r.text

/-- Wherever it is shown, a value that is no fallback shows its text. -/
def Spelled (r : Resolved) : Prop := r.isFallback = false → ∀ source, r.SpelledAt source

theorem spelledAt_fallback (source : String) : (fallback source).SpelledAt source := rfl

theorem spelled_fallback (source : String) : (fallback source).Spelled :=
  fun h => Bool.noConfusion h

theorem spelledAt_string (s source : String) : (string s).SpelledAt source := rfl

theorem spelledAt_unknown (v : Value) (source : String) : (unknown v).SpelledAt source := rfl

/-- Sub-parts that join to the text spell it. -/
theorem spelledAt_of_joined {r : Resolved} {parts : List SubPart} (hp : r.parts = some parts)
    (hj : ExpressionPart.joined? parts = some r.text) (source : String) : r.SpelledAt source := by
  simp [SpelledAt, ExpressionPart.text, hp, hj]

end Resolved

/-! ## Functions -/

/-- All results of the function show their text. -/
def MessageFunction.Spells (function : MessageFunction) : Prop :=
  ∀ call options operand r, function call options operand = .ok r → ∀ source, r.SpelledAt source

namespace MessageFunction

theorem spells_ofText (make : FunctionCall → Options → Option Value → String) :
    (ofText make).Spells := by
  intro call options operand r h source
  cases h
  exact Resolved.spelledAt_string _ source

theorem spells_string : string.Spells := by
  intro call options operand r h source
  cases operand with
  | none => cases h
  | some v =>
    cases h
    exact Resolved.spelledAt_string _ source

theorem spelledAt_resolveNumber (call : FunctionCall) (x : Number) (limits : FractionLimits)
    (exactOnly : Bool) (source : String) :
    (resolveNumber call x limits exactOnly).SpelledAt source :=
  Resolved.spelledAt_of_joined rfl (ExpressionPart.joined?_ofNumberText _) source

theorem spelledAt_resolveInstant (call : FunctionCall) (t : Instant) (styles : DateTimeStyles)
    (field : DateTimeField) (source : String) :
    (resolveInstant call t styles field).SpelledAt source :=
  Resolved.spelledAt_of_joined rfl (ExpressionPart.joined?_ofDateText _ _) source

theorem spells_number : number.Spells := by
  intro call options operand r h source
  obtain ⟨x, -, h⟩ := Outcome.bind_eq_ok h
  obtain ⟨minimum, -, h⟩ := Outcome.bind_eq_ok h
  obtain ⟨maximum, -, h⟩ := Outcome.bind_eq_ok h
  obtain ⟨exactOnly, -, h⟩ := Outcome.bind_eq_ok h
  cases h
  exact spelledAt_resolveNumber ..

theorem spells_integer : integer.Spells := by
  intro call options operand r h source
  obtain ⟨x, -, h⟩ := Outcome.bind_eq_ok h
  obtain ⟨exactOnly, -, h⟩ := Outcome.bind_eq_ok h
  cases h
  exact spelledAt_resolveNumber ..

theorem spells_datetime : datetime.Spells := by
  intro call options operand r h source
  obtain ⟨dateStyle, -, h⟩ := Outcome.bind_eq_ok h
  obtain ⟨timeStyle, -, h⟩ := Outcome.bind_eq_ok h
  obtain ⟨t, -, h⟩ := Outcome.bind_eq_ok h
  cases h
  exact spelledAt_resolveInstant ..

theorem spells_date : date.Spells := by
  intro call options operand r h source
  obtain ⟨style, -, h⟩ := Outcome.bind_eq_ok h
  obtain ⟨t, -, h⟩ := Outcome.bind_eq_ok h
  cases h
  exact spelledAt_resolveInstant ..

theorem spells_time : time.Spells := by
  intro call options operand r h source
  obtain ⟨style, -, h⟩ := Outcome.bind_eq_ok h
  obtain ⟨t, -, h⟩ := Outcome.bind_eq_ok h
  cases h
  exact spelledAt_resolveInstant ..

end MessageFunction

namespace FunctionTable

theorem spells_builtins : Table.Every MessageFunction.Spells builtins := by
  refine Table.every_nil.insertAll ?_
  intro p hp
  simp only [List.mem_cons, List.not_mem_nil, or_false] at hp
  rcases hp with rfl | rfl | rfl | rfl | rfl | rfl
  · exact MessageFunction.spells_string
  · exact MessageFunction.spells_number
  · exact MessageFunction.spells_integer
  · exact MessageFunction.spells_datetime
  · exact MessageFunction.spells_date
  · exact MessageFunction.spells_time

/-- The builtin functions with functions that make a text, which may replace them. -/
def withTexts (texts : List (String × (FunctionCall → Options → Option Value → String))) :
    FunctionTable :=
  builtins.insertAll (texts.map fun p => (p.1, .ofText p.2))

theorem spells_withTexts
    (texts : List (String × (FunctionCall → Options → Option Value → String))) :
    Table.Every MessageFunction.Spells (withTexts texts) := by
  refine spells_builtins.insertAll ?_
  intro p hp
  obtain ⟨q, -, rfl⟩ := List.mem_map.mp hp
  exact MessageFunction.spells_ofText q.2

end FunctionTable

/-! ## Placeholders -/

/-- The text of the item's value is what its part shows. -/
def ResolvedItem.Spelled : ResolvedItem → Prop
  | .expression source value => value.SpelledAt source
  | _ => True

namespace Formatter

section

variable {f : Formatter} (hf : f.functions.Every MessageFunction.Spells)
include hf

theorem spelledAt_call {name source : String} {options : Options} {operand : Option Value}
    {r : Resolved} (h : f.call name source options operand = .ok r) (shownAt : String) :
    r.SpelledAt shownAt := by
  unfold call at h
  split at h
  · cases h
  · next function hfind => exact hf name function hfind _ _ _ _ h shownAt

theorem spelledAt_implicit {source : String} {v : Value} {r : Resolved}
    (h : f.implicit source v = .ok r) (shownAt : String) : r.SpelledAt shownAt := by
  unfold implicit at h
  split at h
  · cases h
    exact Resolved.spelledAt_string _ shownAt
  · split at h
    · exact spelledAt_call hf h shownAt
    · cases h
      exact Resolved.spelledAt_unknown _ shownAt
  · cases h
    exact Resolved.spelledAt_unknown _ shownAt

theorem spelled_apply {scope : Scope} {source : String} {function : Option FunctionUse}
    {operand : Option Value} {r : Resolved} (h : f.apply scope source function operand = .ok r) :
    r.SpelledAt source ∧ r.Spelled := by
  unfold apply at h
  split at h
  · exact ⟨spelledAt_call hf h source, fun _ => spelledAt_call hf h⟩
  · exact ⟨spelledAt_implicit hf h source, fun _ => spelledAt_implicit hf h⟩
  · cases h
    exact ⟨Resolved.spelledAt_fallback source, Resolved.spelled_fallback source⟩

/-- A placeholder shows its value's text; so does every later one that the value reaches. -/
theorem spelled_evaluate {scope : Scope} (hs : scope.locals.Every Resolved.Spelled)
    {e : Expression} {r : Resolved} (h : f.evaluate scope e = .ok r) :
    r.SpelledAt e.source ∧ r.Spelled := by
  have hfallback : (Resolved.fallback e.source).SpelledAt e.source ∧
      (Resolved.fallback e.source).Spelled :=
    ⟨Resolved.spelledAt_fallback _, Resolved.spelled_fallback _⟩
  unfold evaluate at h
  split at h
  · exact spelled_apply hf h
  · exact spelled_apply hf h
  · next name _ =>
    split at h
    · next bound hbound =>
      have hspelled := hs name bound hbound
      split at h
      · cases h
        exact hfallback
      · next hreal =>
        split at h
        · -- the value is shown as it was formatted, under another source
          cases h
          exact ⟨hspelled (Bool.eq_false_iff.mpr hreal) e.source, hspelled⟩
        · exact spelled_apply hf h
    · split at h
      · exact spelled_apply hf h
      · cases h
        exact hfallback

theorem spelled_declare {scope scope' : Scope} {declarations : List Declaration}
    (hs : scope.locals.Every Resolved.Spelled)
    (h : f.declare scope declarations = .ok scope') : scope'.locals.Every Resolved.Spelled :=
  declare_keeps (I := fun s => s.locals.Every Resolved.Spelled)
    (fun d _ _ _ hs hvalue => hs.insert d.name (spelled_evaluate hf hs hvalue).2) hs h

theorem spelled_resolve {arguments : Arguments} {items : List ResolvedItem}
    (h : f.resolve arguments = .ok items) : ∀ item ∈ items, item.Spelled := by
  obtain ⟨scope, hscope, h⟩ := Outcome.bind_eq_ok h
  obtain ⟨pattern, -, h⟩ := Outcome.bind_eq_ok h
  have hs := spelled_declare hf Table.every_nil hscope
  intro resolved hmem
  obtain ⟨item, -, hitem⟩ := Outcome.mapM_eq_ok h resolved hmem
  cases item with
  | text s =>
    cases hitem
    trivial
  | markup m =>
    cases hitem
    trivial
  | expression e =>
    obtain ⟨r, hr, rfl⟩ := Outcome.map_eq_ok hitem
    exact (spelled_evaluate hf hs hr).1

end

/-! ## Marks of direction -/

/-- The same message, shown without marks of direction. -/
def unmarked (f : Formatter) : Formatter := { f with isolates := false }

theorem compile_unmarked {locale source : String} {functions : FunctionTable}
    {localizer : Localizer} {isolates : Bool} {f : Formatter}
    (h : compile locale source functions localizer isolates = .ok f) :
    compile locale source functions localizer false = .ok f.unmarked := by
  obtain ⟨message, hparse, h⟩ := Outcome.bind_eq_ok h
  cases h
  exact compile_of_parse hparse

/-- Marks of direction have no part in what a message resolves to. -/
theorem resolve_unmarked (f : Formatter) (arguments : Arguments) :
    f.unmarked.resolve arguments = f.resolve arguments := by
  have hcalls : f.unmarked.CallsLike f := ⟨rfl, rfl, rfl⟩
  exact hcalls.resolve rfl arguments

/-! ## Text and parts -/

theorem shownAll_itemParts (f : Formatter) {item : ResolvedItem} (h : item.Spelled) :
    Part.shownAll (f.itemParts item) = f.itemText item := by
  cases item with
  | text s => simp [itemParts, itemText, Part.shown, Part.spoken]
  | markup m options => simp [itemParts, itemText, Part.shown, Part.spoken]
  | expression source value =>
    have htext : (f.expressionPart source value).text = value.text := h
    cases hi : f.isolates <;>
      simp [itemParts, itemText, Part.shown, Part.spoken, htext, hi, String.append_assoc]

theorem spokenAll_itemParts (f : Formatter) {item : ResolvedItem} (h : item.Spelled) :
    Part.spokenAll (f.itemParts item) = f.unmarked.itemText item := by
  cases item with
  | text s => simp [itemParts, itemText, Part.spoken]
  | markup m options => simp [itemParts, itemText, Part.spoken]
  | expression source value =>
    have htext : (f.expressionPart source value).text = value.text := h
    cases hi : f.isolates <;> simp [itemParts, itemText, Part.spoken, htext, hi, unmarked]

theorem shownAll_flatMap_itemParts (f : Formatter) {items : List ResolvedItem}
    (h : ∀ item ∈ items, item.Spelled) :
    Part.shownAll (items.flatMap f.itemParts) = String.join (items.map f.itemText) := by
  induction items with
  | nil => rfl
  | cons item rest ih =>
    rw [List.flatMap_cons, Part.shownAll_append, List.map_cons, String.join_cons,
      shownAll_itemParts f (h item List.mem_cons_self),
      ih fun other hmem => h other (List.mem_cons_of_mem _ hmem)]

theorem spokenAll_flatMap_itemParts (f : Formatter) {items : List ResolvedItem}
    (h : ∀ item ∈ items, item.Spelled) :
    Part.spokenAll (items.flatMap f.itemParts) = String.join (items.map f.unmarked.itemText) := by
  induction items with
  | nil => rfl
  | cons item rest ih =>
    rw [List.flatMap_cons, Part.spokenAll_append, List.map_cons, String.join_cons,
      spokenAll_itemParts f (h item List.mem_cons_self),
      ih fun other hmem => h other (List.mem_cons_of_mem _ hmem)]

variable {f : Formatter} (hf : f.functions.Every MessageFunction.Spells)
include hf

/-- The text of a message is what its parts show, and it fails as they do. -/
theorem format_eq_shownAll (arguments : Arguments) :
    f.format arguments = (f.formatToParts arguments).map Part.shownAll := by
  cases h : f.resolve arguments with
  | error e => simp [format, formatToParts, h, bind, Except.bind, Except.map]
  | ok items =>
    have hjoin := shownAll_flatMap_itemParts f (spelled_resolve hf h)
    simp [format, formatToParts, h, bind, Except.bind, Except.map, pure, Except.pure, hjoin]

/-- The text without marks of direction is what the tree of the parts says. -/
theorem format_unmarked_eq_flatten (arguments : Arguments) :
    f.unmarked.format arguments =
      (f.formatToParts arguments).map fun parts => Node.flatten (Node.ofParts parts) := by
  cases h : f.resolve arguments with
  | error e => simp [format, formatToParts, resolve_unmarked, h, bind, Except.bind, Except.map]
  | ok items =>
    have hjoin := spokenAll_flatMap_itemParts f (spelled_resolve hf h)
    simp [format, formatToParts, resolve_unmarked, h, bind, Except.bind, Except.map, pure,
      Except.pure, Node.flatten_ofParts_eq_spokenAll, hjoin]

end Formatter

/-- A compiled message fails as text and as parts alike. Where it does not fail, its text is
what the parts show, and the tree of the parts says what the message without marks of direction
does. -/
theorem text_parts_and_tree_agree
    (texts : List (String × (FunctionCall → Options → Option Value → String)))
    (localizer : Localizer) (locale source : String) (isolates : Bool) (arguments : Arguments)
    {f : Formatter}
    (h : Formatter.compile locale source (.withTexts texts) localizer isolates = .ok f) :
    ∃ plain, Formatter.compile locale source (.withTexts texts) localizer false = .ok plain ∧
      ((∃ e, f.format arguments = .error e ∧ f.formatToParts arguments = .error e ∧
          plain.format arguments = .error e) ∨
        ∃ parts, f.formatToParts arguments = .ok parts ∧
          f.format arguments = .ok (Part.shownAll parts) ∧
          plain.format arguments = .ok (Node.flatten (Node.ofParts parts))) := by
  have hf : f.functions.Every MessageFunction.Spells := by
    obtain ⟨message, -, h⟩ := Outcome.bind_eq_ok h
    cases h
    exact FunctionTable.spells_withTexts texts
  have htext := Formatter.format_eq_shownAll hf arguments
  have htree := Formatter.format_unmarked_eq_flatten hf arguments
  refine ⟨f.unmarked, Formatter.compile_unmarked h, ?_⟩
  cases hparts : f.formatToParts arguments with
  | error e =>
    rw [hparts] at htext htree
    exact .inl ⟨e, htext, rfl, htree⟩
  | ok parts =>
    rw [hparts] at htext htree
    exact .inr ⟨parts, rfl, htext, htree⟩

/-- A local, markup, a missing variable and a function that replaces a builtin one. -/
theorem text_parts_and_tree_agree_mixed :
    ∃ f plain,
      Formatter.compile "en" ".local $n = {7 :number} {{{#b}{$n} {$gone :string}{/i}{$x :date}}}"
        (.withTexts [("date", fun call _ _ => call.source)]) .basic true = .ok f ∧
      Formatter.compile "en" ".local $n = {7 :number} {{{#b}{$n} {$gone :string}{/i}{$x :date}}}"
        (.withTexts [("date", fun call _ _ => call.source)]) .basic false = .ok plain ∧
      ((∃ e, f.format [("x", .null)] = .error e ∧ f.formatToParts [("x", .null)] = .error e ∧
          plain.format [("x", .null)] = .error e) ∨
        ∃ parts, f.formatToParts [("x", .null)] = .ok parts ∧
          f.format [("x", .null)] = .ok (Part.shownAll parts) ∧
          plain.format [("x", .null)] = .ok (Node.flatten (Node.ofParts parts))) := by
  obtain ⟨f, hf⟩ := Outcome.exists_of_isOk (show Except.isOk (Formatter.compile "en"
    ".local $n = {7 :number} {{{#b}{$n} {$gone :string}{/i}{$x :date}}}"
    (.withTexts [("date", fun call _ _ => call.source)]) .basic true) = true by decide +kernel)
  obtain ⟨plain, hplain, hagree⟩ := text_parts_and_tree_agree _ _ _ _ _ [("x", .null)] hf
  exact ⟨f, plain, hf, hplain, hagree⟩

end Phrasebook
