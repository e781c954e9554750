import Phrasebook.Formatter
import Phrasebook.Proofs.Acceptance
import Phrasebook.Proofs.Tables

/-!
Declared names and the arguments that they hide.

A formatter reads a variable in three places: as an operand, as the value of an option and as a
selector. `Scope.withArguments` puts other arguments under the same declarations; each reader has
a lemma that says when this changes nothing. An operand or a selector never reads past a declared
name. An option does where the declared name has no value, which is why
`formatted_ignores_hidden` asks for a value if an option takes the name, and
`formatToParts_reads_hidden` shows that it has to ask.
-/

namespace Phrasebook

/-! ## Where variables stand -/

/-- The variable is the value of one of the options. -/
def OptionsTake (x : String) (entries : List OptionEntry) : Prop :=
  ∃ o ∈ entries, o.value = .variable x

/-- The variable is the value of an option of the expression's function. -/
def Expression.Takes (x : String) (e : Expression) : Prop :=
  ∃ function, e.function = some function ∧ OptionsTake x function.options

/-- The variable is the operand or the value of an option. -/
def Expression.Mentions (x : String) (e : Expression) : Prop :=
  e.operand = some (.variable x) ∨ e.Takes x

def PatternItem.Takes (x : String) : PatternItem → Prop
  | .text _ => False
  | .expression e => e.Takes x
  | .markup m => OptionsTake x m.options

/-- The patterns that a body may show. -/
def Body.patterns : Body → List Pattern
  | .pattern p => [p]
  | .choice m => m.variants.map (·.pattern)

/-- The variable is the value of an option in one of these declarations or patterns. -/
def Taken (x : String) (declarations : List Declaration) (patterns : List Pattern) : Prop :=
  (∃ d ∈ declarations, d.expression.Takes x) ∨ ∃ p ∈ patterns, ∃ item ∈ p, item.Takes x

/-- Two tables that differ at most in what they bind a name to. -/
def Table.AgreeOff {α : Type} (x : String) (a b : Table α) : Prop :=
  ∀ name, name ≠ x → a.find? name = b.find? name

namespace Scope

/-- The declared values, over other arguments. -/
def withArguments (s : Scope) (b : Arguments) : Scope := { s with arguments := b }

/-- The name is declared, and has a value if it needs one. -/
def Hides (s : Scope) (x : String) (needed : Prop) : Prop :=
  ∃ bound, s.locals.find? x = some bound ∧ (needed → bound.value ≠ none)

theorem Hides.insert {s : Scope} {x name : String} {needed : Prop} (h : s.Hides x needed)
    (hne : x ≠ name) (value : Resolved) :
    Hides { s with locals := s.locals.insert name value } x needed := by
  obtain ⟨bound, hfind, hvalue⟩ := h
  exact ⟨bound, (Table.find?_insert_of_ne _ _ hne).trans hfind, hvalue⟩

end Scope

/-! ## Reading variables -/

namespace Formatter

/-- Options have the same values in scopes where each of them does. -/
theorem resolveOptions_congr {s t : Scope} {entries : List OptionEntry}
    (h : ∀ o ∈ entries, optionValue s o.value = optionValue t o.value) :
    resolveOptions s entries = resolveOptions t entries := by
  unfold resolveOptions
  generalize ([] : Options) = options
  induction entries generalizing options with
  | nil => rfl
  | cons o rest ih =>
    obtain ⟨ho, hrest⟩ := List.forall_mem_cons.mp h
    rw [List.foldl_cons, List.foldl_cons, ho]
    exact ih hrest _

section

variable {s : Scope} {x : String} {b : Arguments} (hb : Table.AgreeOff x s.arguments b)
include hb

theorem optionValue_withArguments {o : Operand}
    (h : o = .variable x → ∃ bound, s.locals.find? x = some bound ∧ bound.value ≠ none) :
    optionValue (s.withArguments b) o = optionValue s o := by
  cases o with
  | literal text => rfl
  | «variable» name =>
    by_cases hname : name = x
    · subst hname
      obtain ⟨bound, hfind, hvalue⟩ := h rfl
      cases hv : bound.value with
      | none => exact absurd hv hvalue
      | some v => simp [optionValue, Scope.withArguments, hfind, hv]
    · simp [optionValue, Scope.withArguments, hb name hname]

theorem resolveOptions_withArguments (entries : List OptionEntry)
    (h : OptionsTake x entries → ∃ bound, s.locals.find? x = some bound ∧ bound.value ≠ none) :
    resolveOptions (s.withArguments b) entries = resolveOptions s entries :=
  resolveOptions_congr fun o ho => optionValue_withArguments hb fun heq => h ⟨o, ho, heq⟩

theorem apply_withArguments (f : Formatter) {source : String} {function : Option FunctionUse}
    {operand : Option Value}
    (h : (∃ use, function = some use ∧ OptionsTake x use.options) →
      ∃ bound, s.locals.find? x = some bound ∧ bound.value ≠ none) :
    f.apply (s.withArguments b) source function operand = f.apply s source function operand := by
  cases function with
  | none => cases operand <;> rfl
  | some use =>
    have hoptions := resolveOptions_withArguments hb use.options fun ht =>
      h ⟨use, rfl, ht⟩
    simp only [apply, hoptions]

/-- An expression reads an argument only where no declaration binds its operand, or where an
option takes a name without a value. -/
theorem evaluate_withArguments (f : Formatter) {e : Expression}
    (hoperand : e.operand = some (.variable x) → s.locals.find? x ≠ none)
    (hoptions : e.Takes x → ∃ bound, s.locals.find? x = some bound ∧ bound.value ≠ none) :
    f.evaluate (s.withArguments b) e = f.evaluate s e := by
  have happly : ∀ operand, f.apply (s.withArguments b) e.source e.function operand =
      f.apply s e.source e.function operand := fun operand => apply_withArguments hb f hoptions
  have hlocals : (s.withArguments b).locals = s.locals := rfl
  unfold evaluate
  simp only [happly, hlocals]
  split
  · rfl
  · rfl
  · next name hname =>
    split
    · rfl
    · next hnone =>
      have hne : name ≠ x := fun heq => hoperand (heq ▸ hname) (heq ▸ hnone)
      have harg : (s.withArguments b).arguments.find? name = s.arguments.find? name :=
        (hb name hne).symm
      rw [harg]

theorem evaluate_of_not_mentions (f : Formatter) {e : Expression} (h : ¬ e.Mentions x) :
    f.evaluate (s.withArguments b) e = f.evaluate s e :=
  evaluate_withArguments hb f (fun ho => absurd (.inl ho) h) fun ht => absurd (.inr ht) h

theorem evaluate_of_hides (f : Formatter) {needed : Prop} (hs : s.Hides x needed)
    {e : Expression} (h : e.Takes x → needed) :
    f.evaluate (s.withArguments b) e = f.evaluate s e := by
  obtain ⟨bound, hfind, hvalue⟩ := hs
  exact evaluate_withArguments hb f (fun _ => by simp [hfind]) fun ht => ⟨bound, hfind, hvalue (h ht)⟩

theorem selector_withArguments (f : Formatter) {needed : Prop} (hs : s.Hides x needed)
    (name : String) : f.selector (s.withArguments b) name = f.selector s name := by
  have hlocals : (s.withArguments b).locals = s.locals := rfl
  unfold selector
  rw [hlocals]
  split
  · rfl
  · next hnone =>
    have hne : name ≠ x := by
      rintro rfl
      obtain ⟨bound, hfind, -⟩ := hs
      simp [hfind] at hnone
    have harg : (s.withArguments b).arguments.find? name = s.arguments.find? name :=
      (hb name hne).symm
    rw [harg]

theorem bodyPattern_withArguments (f : Formatter) {needed : Prop} (hs : s.Hides x needed)
    (body : Body) : f.bodyPattern (s.withArguments b) body = f.bodyPattern s body := by
  cases body with
  | pattern p => rfl
  | choice m =>
    have hselector : f.selector (s.withArguments b) = f.selector s :=
      funext fun name => selector_withArguments hb f hs name
    simp only [bodyPattern, selectPattern, hselector]

theorem resolveItem_withArguments (f : Formatter) {needed : Prop} (hs : s.Hides x needed)
    {item : PatternItem} (h : item.Takes x → needed) :
    f.resolveItem (s.withArguments b) item = f.resolveItem s item := by
  cases item with
  | text t => rfl
  | expression e => simp only [resolveItem, evaluate_of_hides hb f hs h]
  | markup m =>
    obtain ⟨bound, hfind, hvalue⟩ := hs
    have hoptions := resolveOptions_withArguments hb m.options fun ht =>
      ⟨bound, hfind, hvalue (h ht)⟩
    simp only [resolveItem, hoptions]

end

/-! ## Declarations -/

theorem declare_append (f : Formatter) (s : Scope) (ds es : List Declaration) :
    f.declare s (ds ++ es) = f.declare s ds >>= fun t => f.declare t es := by
  induction ds generalizing s with
  | nil => rfl
  | cons d ds ih =>
    rw [List.cons_append, declare, declare]
    cases f.evaluate s d.expression with
    | error e => rfl
    | ok value => exact ih _

/-- Where no declaration notices the other arguments, all of them give the same values. What each
one keeps of the scope holds at the end. -/
theorem declare_withArguments (f : Formatter) (b : Arguments) (ds : List Declaration)
    {I : Scope → Prop}
    (hkeeps : ∀ d ∈ ds, ∀ t value, I t → I { t with locals := t.locals.insert d.name value })
    {s : Scope} (hs : I s)
    (hsame : ∀ d ∈ ds, ∀ t, I t → t.arguments = s.arguments →
      f.evaluate (t.withArguments b) d.expression = f.evaluate t d.expression) :
    f.declare (s.withArguments b) ds = (f.declare s ds).map (·.withArguments b) ∧
      ∀ t, f.declare s ds = .ok t → I t ∧ t.arguments = s.arguments := by
  induction ds generalizing s with
  | nil =>
    refine ⟨rfl, fun t ht => ?_⟩
    cases ht
    exact ⟨hs, rfl⟩
  | cons d ds ih =>
    obtain ⟨hkeep, hkeeps⟩ := List.forall_mem_cons.mp hkeeps
    obtain ⟨hfirst, hsame⟩ := List.forall_mem_cons.mp hsame
    rw [declare, declare, hfirst s hs rfl]
    cases f.evaluate s d.expression with
    | error e => exact ⟨rfl, fun t ht => by cases ht⟩
    | ok value => exact ih hkeeps (hkeep s value hs) hsame

/-! ## Messages -/

/-- What is shown once some declarations have been made: the others are made, a pattern is chosen
and its items get their values. -/
def resolveAfter (f : Formatter) (scope : Scope) (rest : List Declaration) :
    Except FormatError (List ResolvedItem) := do
  let scope ← f.declare scope rest
  let pattern ← f.bodyPattern scope f.message.body
  pattern.mapM (f.resolveItem scope)

theorem resolve_eq_resolveAfter (f : Formatter) (arguments : Arguments)
    {first rest : List Declaration} (h : f.message.declarations = first ++ rest) :
    f.resolve arguments = f.declare { arguments } first >>= fun s => f.resolveAfter s rest := by
  rw [resolve, h, declare_append]
  cases f.declare { arguments } first <;> rfl

theorem bestVariant_mem (f : Formatter) {selectors : List Selector} {variants : List Variant}
    {best : Option (List Nat × Variant)} {ranks : List Nat} {v : Variant}
    (h : f.bestVariant selectors variants best = some (ranks, v)) :
    v ∈ variants ∨ best = some (ranks, v) := by
  fun_induction bestVariant f selectors variants best with
  | case1 best => exact .inr h
  | case2 best w rest hnone ih => exact (ih h).imp_left (List.mem_cons_of_mem _)
  | case3 w rest ranks' hranks ih =>
    rcases ih h with hv | hv
    · exact .inl (List.mem_cons_of_mem _ hv)
    · cases hv
      exact .inl List.mem_cons_self
  | case4 w rest ranks' hranks bestRanks u ih =>
    rcases ih h with hv | hv
    · exact .inl (List.mem_cons_of_mem _ hv)
    · split at hv
      · cases hv
        exact .inl List.mem_cons_self
      · exact .inr hv

theorem bodyPattern_mem (f : Formatter) {s : Scope} {body : Body} {p : Pattern}
    (h : f.bodyPattern s body = .ok p) : p ∈ body.patterns := by
  cases body with
  | pattern q =>
    cases h
    exact List.mem_singleton.mpr rfl
  | choice m =>
    obtain ⟨selectors, -, h⟩ := Outcome.bind_eq_ok h
    split at h
    · next ranks v hbest =>
      cases h
      rcases bestVariant_mem f hbest with hv | hv
      · exact List.mem_map.mpr ⟨v, hv, rfl⟩
      · cases hv
    · cases h

/-- Once a name is declared, the argument of that name shows only through an option that takes the
name where it has no value. -/
theorem resolveAfter_withArguments (f : Formatter) {s : Scope} {x : String} {b : Arguments}
    (hb : Table.AgreeOff x s.arguments b) {rest : List Declaration}
    (hs : s.Hides x (Taken x rest f.message.body.patterns))
    (hnames : ∀ d ∈ rest, x ≠ d.name) :
    f.resolveAfter (s.withArguments b) rest = f.resolveAfter s rest := by
  obtain ⟨hdeclare, hends⟩ := f.declare_withArguments b rest
    (I := fun t => t.Hides x (Taken x rest f.message.body.patterns))
    (fun d hd t value ht => ht.insert (hnames d hd) value) hs
    (fun d hd t ht harguments =>
      evaluate_of_hides (harguments ▸ hb) f ht fun htakes => .inl ⟨d, hd, htakes⟩)
  rw [resolveAfter, resolveAfter, hdeclare]
  cases hrun : f.declare s rest with
  | error e => rfl
  | ok t =>
    obtain ⟨ht, harguments⟩ := hends t hrun
    have htb : Table.AgreeOff x t.arguments b := harguments ▸ hb
    have hbody := bodyPattern_withArguments htb f ht f.message.body
    simp only [Except.map, bind, Except.bind, hbody]
    cases hpattern : f.bodyPattern t f.message.body with
    | error e => rfl
    | ok p =>
      refine Outcome.mapM_congr fun item hitem => resolveItem_withArguments htb f ht ?_
      exact fun htakes => .inr ⟨p, f.bodyPattern_mem hpattern, item, hitem, htakes⟩

/-- A name is hidden as soon as its declaration is made. -/
theorem hides_of_declare (f : Formatter) {s t : Scope} {ds : List Declaration} {d : Declaration}
    (h : f.declare s (ds ++ [d]) = .ok t) {needed : Prop}
    (hvalue : needed → ∀ bound, t.locals.find? d.name = some bound → bound.value ≠ none) :
    t.Hides d.name needed := by
  rw [declare_append] at h
  obtain ⟨u, -, h⟩ := Outcome.bind_eq_ok h
  obtain ⟨value, -, h⟩ := Outcome.bind_eq_ok h
  cases h
  have hfind := Table.find?_insert_self u.locals d.name value
  exact ⟨value, hfind, fun hneeded => hvalue hneeded value hfind⟩

/-- What a compiled message shows does not depend on the argument of a declared name, if neither
the declaration nor one before it mentions the name, and if the name has a value where an option
takes it. -/
theorem formatted_ignores_hidden {locale source : String} {functions : FunctionTable}
    {localizer : Localizer} {isolates : Bool} {f : Formatter}
    (hf : compile locale source functions localizer isolates = .ok f)
    {before rest : List Declaration} {d : Declaration}
    (hd : f.message.declarations = before ++ d :: rest)
    (hmentions : ∀ e ∈ before ++ [d], ¬ e.expression.Mentions d.name)
    {a b : Arguments} (hab : Table.AgreeOff d.name a b)
    (hvalue : Taken d.name rest f.message.body.patterns → ∀ s,
      f.declare { arguments := a } (before ++ [d]) = .ok s →
        ∀ bound, s.locals.find? d.name = some bound → bound.value ≠ none) :
    f.format a = f.format b ∧ f.formatToParts a = f.formatToParts b := by
  have hsplit : f.message.declarations = (before ++ [d]) ++ rest := by simp [hd]
  have hnames : ∀ e ∈ rest, d.name ≠ e.name := by
    obtain ⟨message, hparse, hf⟩ := Outcome.bind_eq_ok hf
    cases hf
    have hdistinct := (Message.of_validate (Message.of_parse hparse).2).1
    rw [hd, List.map_append, List.map_cons] at hdistinct
    intro e he
    exact (List.nodup_cons.mp (List.nodup_append.mp hdistinct).2.1).1 ∘
      fun heq => List.mem_map.mpr ⟨e, he, heq.symm⟩
  have hresolve : f.resolve b = f.resolve a := by
    rw [f.resolve_eq_resolveAfter a hsplit, f.resolve_eq_resolveAfter b hsplit]
    obtain ⟨hdeclare, hends⟩ := f.declare_withArguments b (before ++ [d])
      (I := fun _ => True) (fun _ _ _ _ _ => trivial) (s := { arguments := a }) trivial
      (fun e he t _ harguments => evaluate_of_not_mentions (harguments ▸ hab) f (hmentions e he))
    rw [show f.declare { arguments := b } (before ++ [d]) = _ from hdeclare]
    cases hrun : f.declare { arguments := a } (before ++ [d]) with
    | error e => rfl
    | ok s =>
      have hsb : Table.AgreeOff d.name s.arguments b := (hends s hrun).2 ▸ hab
      exact f.resolveAfter_withArguments hsb (f.hides_of_declare hrun (hvalue · s hrun)) hnames
  constructor
  · rw [format, format, hresolve]
  · rw [formatToParts, formatToParts, hresolve]

/-- A declaration of `x`, and a message that shows `x` and takes it as an option. -/
def hidingDeclaration (operand : Operand) : Declaration :=
  ⟨.binding, "x", ⟨some operand, none, ⟨12, 19, 1, 13⟩⟩⟩

def hidingFormatter (operand : Operand) : Formatter where
  locale := "en"
  source := ".local $x = \x7b" ++ operand.source ++ "\x7d \x7b\x7b\x7b$x\x7d\x7b#b o=$x /\x7d\x7d\x7d"
  message :=
    ⟨[hidingDeclaration operand],
      .pattern [.expression ⟨some (.variable "x"), none, ⟨22, 26, 1, 23⟩⟩,
        .markup ⟨.standalone, "b", [⟨"o", .variable "x"⟩], ⟨26, 37, 1, 27⟩⟩]⟩
  functions := .builtins
  localizer := .basic
  isolates := true

theorem compile_hidingFormatter {operand : Operand}
    (h : (Message.parse (hidingFormatter operand).source).toOption =
      some (hidingFormatter operand).message) :
    compile "en" (hidingFormatter operand).source .builtins .basic true =
      .ok (hidingFormatter operand) :=
  compile_of_parse (Outcome.eq_ok_of_toOption h)

theorem not_mentions_hidingDeclaration (operand : Operand) (h : operand ≠ .variable "x") :
    ¬ (hidingDeclaration operand).expression.Mentions "x" := by
  rintro (hoperand | ⟨function, hfunction, -⟩)
  · exact h (Option.some.inj hoperand)
  · cases hfunction

theorem agreeOff_singleton (x : String) (v : Value) : Table.AgreeOff x [] [(x, v)] := by
  intro name hname
  have hbeq : (name == x) = false := by simpa using hname
  simp [Table.find?, List.lookup_cons, hbeq]

/-- The local has the value `low`, so an argument of its name changes nothing. -/
theorem formatted_ignores_hidden_low :
    let f := hidingFormatter (.literal "low")
    compile "en" f.source .builtins .basic true = .ok f ∧
      ¬ (hidingDeclaration (.literal "low")).expression.Mentions "x" ∧
      f.format [] = f.format [("x", .string "high")] ∧
      f.formatToParts [] = f.formatToParts [("x", .string "high")] := by
  intro f
  have hf : compile "en" f.source .builtins .basic true = .ok f :=
    compile_hidingFormatter (by decide +kernel)
  have hmentions := not_mentions_hidingDeclaration (.literal "low") (by decide)
  have hd : f.message.declarations = [] ++ hidingDeclaration (.literal "low") :: [] := rfl
  refine ⟨hf, hmentions, ?_⟩
  apply formatted_ignores_hidden hf hd (List.forall_mem_singleton.mpr hmentions)
    (agreeOff_singleton _ _)
  intro _ s hs bound hbound
  cases hs
  cases hbound
  exact Option.some_ne_none _

/-- The local is a fallback, which has no value, so its option is the argument that it hides. -/
theorem formatToParts_reads_hidden :
    let f := hidingFormatter (.variable "gone")
    compile "en" f.source .builtins .basic true = .ok f ∧
      ¬ (hidingDeclaration (.variable "gone")).expression.Mentions "x" ∧
      Table.AgreeOff "x" [] [("x", Value.string "high")] ∧
      f.formatToParts [] ≠ f.formatToParts [("x", .string "high")] := by
  intro f
  have hf : compile "en" f.source .builtins .basic true = .ok f :=
    compile_hidingFormatter (by decide +kernel)
  refine ⟨hf, not_mentions_hidingDeclaration _ (by decide), agreeOff_singleton _ _, fun h => ?_⟩
  cases h

end Formatter

end Phrasebook
