import Mathlib.Data.List.Nodup
import Phrasebook.Proofs.RoundTrip
import Phrasebook.Proofs.Scopes

/-!
Declarations that change nothing, their order, and what a declared name means.

A bare `input` declaration binds its name to what the name gives without it. With the builtin
functions it gives that in every place where a variable may stand, so the declaration changes
nothing (`Formatter.format_insertInput`). Two declarations that do not mention each other's names
may stand in either order (`Formatter.format_swapped`). A declared name that is shown alone shows
what its expression shows there, if nothing that the expression mentions has been declared meanwhile
(`Formatter.format_inlined`).
-/

namespace Phrasebook

/-- The declaration of an argument, without a function. -/
def Declaration.bareInput (x : String) : Declaration := ⟨.input, x, .bare x⟩

/-! ## Messages with a source -/

/-- The message of a formatter is well formed. -/
theorem Formatter.wellFormed_of_compile {locale source : String} {functions : FunctionTable}
    {localizer : Localizer} {isolates : Bool} {f : Formatter}
    (hf : compile locale source functions localizer isolates = .ok f) : f.message.WellFormed := by
  obtain ⟨m, hparse, hf⟩ := Outcome.bind_eq_ok hf
  cases hf
  obtain ⟨hscan, hvalidate⟩ := Message.of_parse hparse
  obtain ⟨hdistinct, hchoice⟩ := Message.of_validate hvalidate
  obtain ⟨hdeclarations, hbody⟩ := Message.piecesWellFormed_of_scan hscan
  obtain ⟨declarations, body⟩ := m
  cases body with
  | pattern p => exact ⟨hdeclarations, hdistinct, hbody⟩
  | choice c =>
    obtain ⟨hkeys, hcatchAll⟩ := Matcher.of_fault?_eq_none (hchoice c rfl)
    exact ⟨hdeclarations, hdistinct, hbody.nonempty, hbody.selectors, hkeys, hbody.patterns,
      hcatchAll⟩

/-- A well-formed message has a source that compiles to it, up to spans. -/
theorem Message.WellFormed.exists_compile {m : Message} (hm : m.WellFormed) (locale : String)
    (functions : FunctionTable) (localizer : Localizer) (isolates : Bool) :
    ∃ source g, Formatter.compile locale source functions localizer isolates = .ok g ∧
      g.message.unplaced = m.unplaced := by
  obtain ⟨cs, hcs⟩ := hm.exists_written
  obtain ⟨m', hparse, hm'⟩ := Message.parse_of_written hcs hm
  exact ⟨_, _, Formatter.compile_of_parse hparse, hm'⟩

/-- No name is declared again. -/
theorem Message.WellFormed.not_redeclared {m : Message} (hm : m.WellFormed) {d : Declaration}
    {before rest : List Declaration} (hd : m.declarations = before ++ d :: rest) :
    ∀ e ∈ rest, e.name ≠ d.name := by
  have hnames := hm.distinct
  rw [hd, List.map_append, List.map_cons] at hnames
  have hlater := (List.nodup_cons.mp (List.nodup_append.mp hnames).2.1).1
  exact fun e he heq => hlater (heq ▸ List.mem_map_of_mem he)

/-- Bytes of the first line, where all characters have one byte. -/
def Span.inFirstLine (start stop : Nat) : Span := ⟨start, stop, 1, .ofNat (start + 1)⟩

namespace Formatter

variable {f g : Formatter} {s : Scope}

theorem CallsLike.resolveAfter (h : f.CallsLike g) (hbody : f.message.body = g.message.body)
    (s : Scope) (rest : List Declaration) : f.resolveAfter s rest = g.resolveAfter s rest := by
  rw [Formatter.resolveAfter, Formatter.resolveAfter, h.declare]
  refine congrArg _ (funext fun t => ?_)
  rw [← hbody, h.bodyPattern, funext (h.resolveItem t)]

theorem resolveAfter_cons (f : Formatter) (s : Scope) (d : Declaration)
    (rest : List Declaration) :
    f.resolveAfter s (d :: rest) = f.evaluate s d.expression >>= fun value =>
      f.resolveAfter { s with locals := s.locals.insert d.name value } rest := by
  rw [resolveAfter, declare]
  cases f.evaluate s d.expression <;> rfl

/-! ## Bare declarations of arguments -/

/-- With the builtin functions, whatever no function is named for can be shown, and keeps its
value. -/
theorem exists_implicit (hf : f.functions = .builtins) (source : String) (v : Value) :
    ∃ r, f.implicit source v = .ok r ∧ r.value = some v ∧ r.isFallback = false := by
  cases v with
  | string text => exact ⟨_, rfl, rfl, rfl⟩
  | number x =>
    have hnumber : f.implicit source (.number x) =
        .ok (MessageFunction.resolveNumber ⟨"number", f.locale, source, f.localizer⟩ x
          ⟨none, none⟩ false) := by
      rw [implicit, call, hf]
      rfl
    exact ⟨_, hnumber, rfl, rfl⟩
  | null => exact ⟨_, rfl, rfl, rfl⟩
  | bool b => exact ⟨_, rfl, rfl, rfl⟩
  | list items => exact ⟨_, rfl, rfl, rfl⟩
  | map entries => exact ⟨_, rfl, rfl, rfl⟩

/-- With the builtin functions, a name may as well be bound to what it gives when it is not
declared. -/
theorem exists_readsLike_insert (hf : f.functions = .builtins) {x : String}
    (hx : s.locals.find? x = none) :
    ∃ r, f.evaluate s (.bare x) = .ok r ∧
      f.ReadsLike s { s with locals := s.locals.insert x r } := by
  have hreads : ∀ r, f.Alike s { s with locals := s.locals.insert x r } x →
      f.ReadsLike s { s with locals := s.locals.insert x r } := by
    refine fun r halike => ⟨rfl, fun name => ?_⟩
    by_cases hname : name = x
    · exact hname ▸ halike
    · exact alike_of_find?_eq (Table.find?_insert_of_ne _ _ hname).symm rfl
  have hbound : ∀ r, (s.locals.insert x r).find? x = some r :=
    fun r => Table.find?_insert_self _ _ _
  cases harg : s.arguments.find? x with
  | none =>
    have hshown : f.evaluate s (.bare x) = .ok (.fallback ("$" ++ x)) := by
      simp only [evaluate, Expression.bare, hx, harg]
      rfl
    refine ⟨_, hshown, hreads _ (alike_of_bound rfl (hbound _) (fun _ => rfl) hshown ?_ ?_ ?_)⟩
    · rw [operandValue, hx, harg]
      rfl
    · rw [optionValue, hx, harg]
      rfl
    · rw [selector, hx, harg]
      rfl
  | some v =>
    obtain ⟨r, hr, hvalue, hfallback⟩ := exists_implicit hf ("$" ++ x) v
    have hshown : f.evaluate s (.bare x) = .ok r := by
      simp only [evaluate, Expression.bare, hx, harg]
      exact hr
    refine ⟨_, hshown, hreads _ (alike_of_bound rfl (hbound _) ?_ hshown ?_ ?_ ?_)⟩
    · simp [hfallback]
    · simp [operandValue, hx, harg, hfallback, hvalue]
    · simp [optionValue, hx, harg, hvalue]
    · simp only [selector, hx, harg, hr]
      rfl

theorem wellFormed_bareInput {x : String} (hx : IsName x) :
    (Declaration.bareInput x).WellFormed := by
  have hexpression : (Expression.bare x).WellFormed := by
    refine ⟨?_, ?_, .inl rfl⟩
    · rintro _ ⟨⟩
      exact hx
    · rintro _ ⟨⟩
  exact ⟨hx, hexpression, fun _ => rfl⟩

theorem wellFormed_insertInput {m : Message} (hm : m.WellFormed) {x : String} (hx : IsName x)
    (hnew : ∀ d ∈ m.declarations, d.name ≠ x) {before rest : List Declaration}
    (hd : m.declarations = before ++ rest) :
    Message.WellFormed ⟨before ++ .bareInput x :: rest, m.body⟩ := by
  have hdeclarations := hm.declarations
  have hdistinct := hm.distinct
  rw [hd] at hdeclarations hdistinct hnew
  obtain ⟨hbefore, hrest⟩ := List.forall_mem_append.mp hdeclarations
  refine ⟨?_, ?_, hm.body⟩
  · exact List.forall_mem_append.mpr
      ⟨hbefore, List.forall_mem_cons.mpr ⟨wellFormed_bareInput hx, hrest⟩⟩
  · rw [List.map_append, List.map_cons, List.nodup_middle, ← List.map_append]
    refine List.nodup_cons.mpr ⟨fun hmem => ?_, hdistinct⟩
    obtain ⟨d, hmem, hname⟩ := List.mem_map.mp hmem
    exact hnew d hmem hname

theorem resolve_insertInput (h : f.CallsLike g) (hf : f.functions = .builtins) {x : String}
    {before rest : List Declaration} (hd : f.message.declarations = before ++ rest)
    (hx : ∀ d ∈ before, d.name ≠ x)
    (hg : g.message = ⟨before ++ .bareInput x :: rest, f.message.body⟩) (arguments : Arguments) :
    g.resolve arguments = f.resolve arguments := by
  have hdeclarations : g.message.declarations = before ++ .bareInput x :: rest := by rw [hg]
  have hbody : f.message.body = g.message.body := by rw [hg]
  rw [g.resolve_eq_resolveAfter arguments hdeclarations, f.resolve_eq_resolveAfter arguments hd,
    h.declare]
  cases hrun : g.declare { arguments } before with
  | error e => rfl
  | ok s =>
    change g.resolveAfter s (.bareInput x :: rest) = f.resolveAfter s rest
    obtain ⟨r, hshown, hlike⟩ := exists_readsLike_insert hf (locals_declare hx hrun)
    have hinput : f.evaluate s (Declaration.bareInput x).expression = .ok r := hshown
    rw [← h.resolveAfter hbody, resolveAfter_cons, hinput]
    exact (resolveAfter_congr hlike rest).symm

/-- With the builtin functions, to declare an argument without a function, anywhere among the
declarations of a message, gives a message that shows the same. -/
theorem format_insertInput {locale source : String} {localizer : Localizer} {isolates : Bool}
    (hf : compile locale source .builtins localizer isolates = .ok f) {x : String}
    (hx : ∀ d ∈ f.message.declarations, d.name ≠ x) {before rest : List Declaration}
    (hd : f.message.declarations = before ++ rest) :
    let m : Message := ⟨before ++ .bareInput x :: rest, f.message.body⟩
    (IsName x → ∃ source' g, compile locale source' .builtins localizer isolates = .ok g ∧
      g.message.unplaced = m.unplaced) ∧
    ∀ source' g, compile locale source' .builtins localizer isolates = .ok g →
      g.message.unplaced = m.unplaced → ∀ arguments,
        g.format arguments = f.format arguments ∧
          g.formatToParts arguments = f.formatToParts arguments := by
  intro m
  constructor
  · intro hname
    exact (wellFormed_insertInput (wellFormed_of_compile hf) hname hx hd).exists_compile ..
  · intro source' g hg hm arguments
    have hfunctions : f.functions = .builtins := by
      obtain ⟨_, -, hf⟩ := Outcome.bind_eq_ok hf
      cases hf
      rfl
    have hbefore : ∀ d ∈ before, d.name ≠ x := fun d hmem =>
      hx d (hd ▸ List.mem_append_left rest hmem)
    have hshows := showsLike_withMessage f m
    have hsame := format_of_compile hf hg hm arguments
    have hresolve := resolve_insertInput hshows.toCallsLike hfunctions hd hbefore rfl arguments
    have hinserted := format_eq_of_resolve_eq hshows hresolve.symm
    exact ⟨hsame.1.trans hinserted.1.symm, hsame.2.trans hinserted.2.symm⟩

/-- An argument that is the operand of a function, shown alone and the value of an option, after
declarations whose source has some length. -/
def takingFormatter (first : String) (ds : List Declaration) (n : Nat) : Formatter where
  locale := "en"
  source := first ++ ".local $y = \x7b$x :string\x7d \x7b\x7b\x7b$x\x7d\x7b#b o=$x /\x7d\x7d\x7d"
  message :=
    ⟨ds ++ [⟨.binding, "y",
        ⟨some (.variable "x"), some ⟨"string", []⟩, .inFirstLine (n + 12) (n + 24)⟩⟩],
      .pattern [.expression ⟨some (.variable "x"), none, .inFirstLine (n + 27) (n + 31)⟩,
        .markup ⟨.standalone, "b", [⟨"o", .variable "x"⟩], .inFirstLine (n + 31) (n + 42)⟩]⟩
  functions := .builtins
  localizer := .basic
  isolates := true

theorem format_insertInput_taking :
    let f := takingFormatter "" [] 0
    let g := takingFormatter ".input \x7b$x\x7d "
      [⟨.input, "x", ⟨some (.variable "x"), none, ⟨7, 11, 1, 8⟩⟩⟩] 12
    compile "en" f.source .builtins .basic true = .ok f ∧
      (∀ d ∈ f.message.declarations, d.name ≠ "x") ∧
      compile "en" g.source .builtins .basic true = .ok g ∧ ∀ arguments,
        g.format arguments = f.format arguments ∧
          g.formatToParts arguments = f.formatToParts arguments := by
  intro f g
  have hf : compile "en" f.source .builtins .basic true = .ok f :=
    compile_of_parse (Outcome.eq_ok_of_toOption (by decide +kernel))
  have hg : compile "en" g.source .builtins .basic true = .ok g :=
    compile_of_parse (Outcome.eq_ok_of_toOption (by decide +kernel))
  have hx : ∀ d ∈ f.message.declarations, d.name ≠ "x" :=
    List.forall_mem_singleton.mpr (by decide)
  have hd : f.message.declarations = [] ++ f.message.declarations := rfl
  exact ⟨hf, hx, hg, (format_insertInput hf hx hd).2 _ g hg rfl⟩

end Formatter

/-! ## The order of declarations -/

section

variable {f g : Formatter} {d e : Declaration} {before rest : List Declaration}

theorem Message.WellFormed.swapped {m : Message} (hm : m.WellFormed)
    (hd : m.declarations = before ++ d :: e :: rest) :
    Message.WellFormed ⟨before ++ e :: d :: rest, m.body⟩ := by
  have hswap : (before ++ e :: d :: rest).Perm m.declarations :=
    hd ▸ (List.Perm.swap d e rest).append_left before
  refine ⟨fun c hc => hm.declarations c (hswap.mem_iff.mp hc), ?_, hm.body⟩
  exact (hswap.map _).nodup_iff.mpr hm.distinct

namespace Formatter

/-- What is shown after two declarations is shown after them in the other order, if neither mentions
the name of the other. Where both fail, the error is that of the first. -/
theorem resolveAfter_swap (hne : d.name ≠ e.name) (hde : ¬ d.expression.Mentions e.name)
    (hed : ¬ e.expression.Mentions d.name) {s : Scope} {items : List ResolvedItem}
    (h : f.resolveAfter s (d :: e :: rest) = .ok items) :
    f.resolveAfter s (e :: d :: rest) = .ok items := by
  rw [resolveAfter_cons] at h
  obtain ⟨a, ha, h⟩ := Outcome.bind_eq_ok h
  rw [resolveAfter_cons, evaluate_insert_of_not_mentions hed] at h
  obtain ⟨b, hb, h⟩ := Outcome.bind_eq_ok h
  rw [resolveAfter_cons, hb]
  change f.resolveAfter { s with locals := s.locals.insert e.name b } (d :: rest) = .ok items
  rw [resolveAfter_cons, evaluate_insert_of_not_mentions hde, ha]
  have hlike := readsLike_insert_comm (f := f) (s := s) hne a b
  exact (resolveAfter_congr hlike rest).symm.trans h

theorem resolve_swap (h : f.CallsLike g) (hd : f.message.declarations = before ++ d :: e :: rest)
    (hg : g.message.declarations = before ++ e :: d :: rest)
    (hbody : f.message.body = g.message.body)
    (hne : d.name ≠ e.name) (hde : ¬ d.expression.Mentions e.name)
    (hed : ¬ e.expression.Mentions d.name) {arguments : Arguments} {items : List ResolvedItem}
    (hitems : f.resolve arguments = .ok items) : g.resolve arguments = .ok items := by
  rw [f.resolve_eq_resolveAfter arguments hd] at hitems
  rw [g.resolve_eq_resolveAfter arguments hg, ← h.declare]
  obtain ⟨s, hs, hitems⟩ := Outcome.bind_eq_ok hitems
  rw [hs]
  change g.resolveAfter s (e :: d :: rest) = .ok items
  rw [← h.resolveAfter hbody]
  exact resolveAfter_swap hne hde hed hitems

/-- Two adjacent declarations of a message, neither of which mentions the name of the other, may
change places: the message then shows the same, or still fails. -/
theorem format_swapped {locale source : String} {functions : FunctionTable} {localizer : Localizer}
    {isolates : Bool} (hf : compile locale source functions localizer isolates = .ok f)
    (hd : f.message.declarations = before ++ d :: e :: rest)
    (hde : ¬ d.expression.Mentions e.name) (hed : ¬ e.expression.Mentions d.name) :
    let m : Message := ⟨before ++ e :: d :: rest, f.message.body⟩
    (∃ source' g, compile locale source' functions localizer isolates = .ok g ∧
      g.message.unplaced = m.unplaced) ∧
    ∀ source' g, compile locale source' functions localizer isolates = .ok g →
      g.message.unplaced = m.unplaced → ∀ arguments,
        (∀ text, g.format arguments = .ok text ↔ f.format arguments = .ok text) ∧
          ∀ parts,
            g.formatToParts arguments = .ok parts ↔ f.formatToParts arguments = .ok parts := by
  intro m
  have hwellFormed := wellFormed_of_compile hf
  constructor
  · exact (hwellFormed.swapped hd).exists_compile ..
  · intro source' g hg hm arguments
    have hne : d.name ≠ e.name := by
      have hdistinct := hwellFormed.distinct
      rw [hd, List.map_append] at hdistinct
      exact (List.pairwise_cons.mp (List.nodup_append.mp hdistinct).2.1).1 _ List.mem_cons_self
    have hshows := showsLike_withMessage f m
    have hsame : ∀ items, { f with message := m }.resolve arguments = .ok items ↔
        f.resolve arguments = .ok items := fun items =>
      ⟨resolve_swap hshows.toCallsLike.symm rfl hd rfl hne.symm hed hde,
        resolve_swap hshows.toCallsLike hd rfl rfl hne hde hed⟩
    obtain ⟨htext, hparts⟩ := format_of_compile hf hg hm arguments
    constructor
    · intro text
      rw [htext, format_eq_ok_iff, format_eq_ok_iff]
      simp only [hsame]
      rfl
    · intro parts
      rw [hparts, formatToParts_eq_ok_iff, formatToParts_eq_ok_iff]
      simp only [hsame]
      rfl

/-- A name for an argument. -/
def argumentBinding (n : Nat) : Declaration :=
  ⟨.binding, "a", ⟨some (.variable "m"), none, .inFirstLine n (n + 4)⟩⟩

/-- An argument that has to be a number. -/
def numberInput (n : Nat) : Declaration :=
  ⟨.input, "n", ⟨some (.variable "n"), some ⟨"number", []⟩, .inFirstLine n (n + 12)⟩⟩

def twoDeclarationsFormatter (first second : String) (ds : List Declaration) : Formatter where
  locale := "en"
  source := first ++ second ++ ".match $n * {{{$a}}}"
  message :=
    ⟨ds, .choice ⟨["n"],
      [⟨[.catchAll], [.expression ⟨some (.variable "a"), none, ⟨51, 55, 1, 52⟩⟩],
        ⟨47, 57, 1, 48⟩⟩],
      ⟨43, 57, 1, 44⟩⟩⟩
  functions := .builtins
  localizer := .basic
  isolates := true

theorem format_swapped_fallible :
    let binding := ".local $a = {$m} "
    let input := ".input {$n :number} "
    let f := twoDeclarationsFormatter binding input [argumentBinding 12, numberInput 24]
    let g := twoDeclarationsFormatter input binding [numberInput 7, argumentBinding 32]
    compile "en" f.source .builtins .basic true = .ok f ∧
      compile "en" g.source .builtins .basic true = .ok g ∧
      ¬ (argumentBinding 12).expression.Mentions "n" ∧
      ¬ (numberInput 24).expression.Mentions "a" ∧ ∀ arguments,
        (∀ text, g.format arguments = .ok text ↔ f.format arguments = .ok text) ∧
          ∀ parts,
            g.formatToParts arguments = .ok parts ↔ f.formatToParts arguments = .ok parts := by
  intro binding input f g
  have hf : compile "en" f.source .builtins .basic true = .ok f :=
    compile_of_parse (Outcome.eq_ok_of_toOption (by decide +kernel))
  have hg : compile "en" g.source .builtins .basic true = .ok g :=
    compile_of_parse (Outcome.eq_ok_of_toOption (by decide +kernel))
  have hbinding : ¬ (argumentBinding 12).expression.Mentions "n" := by
    rintro (hoperand | ⟨use, huse, -⟩)
    · exact absurd (Option.some.inj hoperand) (by decide)
    · cases huse
  have hinput : ¬ (numberInput 24).expression.Mentions "a" := by
    rintro (hoperand | ⟨use, huse, o, ho, -⟩)
    · exact absurd (Option.some.inj hoperand) (by decide)
    · cases huse
      cases ho
  have hd : f.message.declarations = [] ++ argumentBinding 12 :: numberInput 24 :: [] := rfl
  exact ⟨hf, hg, hbinding, hinput, (format_swapped hf hd hbinding hinput).2 _ g hg rfl⟩

end Formatter

end

/-! ## Names for expressions -/

/-- The items are the same, or the first shows a name alone and the second is an expression. -/
inductive PatternItem.Inlines (name : String) (e : Expression) : PatternItem → PatternItem → Prop
  | keep (item : PatternItem) : Inlines name e item item
  | inline {p : Expression} :
      p.operand = some (.variable name) → p.function = none →
        Inlines name e (.expression p) (.expression e)

namespace Formatter

variable {f g : Formatter} {before rest : List Declaration} {d : Declaration}

/-- A declared name shows what its expression shows once more declarations have been made, if they
declare nothing that the expression mentions. -/
theorem agree_resolveItem_of_inlines (hdistinct : ∀ e ∈ rest, e.name ≠ d.name)
    (hmentions : ∀ e ∈ d :: rest, ¬ d.expression.Mentions e.name) {s t : Scope} {r : Resolved}
    (hr : f.evaluate s d.expression = .ok r) (hfallback : r.isFallback = false)
    (ht : f.declare s (d :: rest) = .ok t) {i j : PatternItem}
    (h : i.Inlines d.name d.expression j) :
    Outcome.Agree (fun a b => f.itemText a = f.itemText b) (f.resolveItem t i)
      (f.resolveItem t j) := by
  cases h with
  | keep =>
    exact Outcome.agree_refl (R := fun a b => f.itemText a = f.itemText b) (fun _ => rfl) _
  | @inline p hoperand hfunction =>
    have hlater : f.evaluate t d.expression = .ok r := by
      rw [← hr]
      refine (evaluate_congr fun name hname => alike_declare (fun e he heq => ?_) ht).symm
      exact hmentions e he (heq ▸ hname)
    have hname : f.evaluate t p = .ok r := by
      rw [declare, hr] at ht
      have hbound := locals_declare hdistinct ht
      rw [Table.find?_insert_self] at hbound
      rw [evaluate_bare hoperand hfunction, evaluate_bound hbound hfallback]
    rw [resolveItem, resolveItem, hname, hlater]
    exact .ok rfl

theorem format_inlines (h : f.ShowsLike g) (hd : f.message.declarations = before ++ d :: rest)
    (hdistinct : ∀ e ∈ rest, e.name ≠ d.name)
    (hmentions : ∀ e ∈ d :: rest, ¬ d.expression.Mentions e.name)
    (hdeclarations : g.message.declarations = f.message.declarations)
    (hbody : f.message.body.Corresponds (PatternItem.Inlines d.name d.expression) g.message.body)
    {arguments : Arguments} {s : Scope} {r : Resolved}
    (hs : f.declare { arguments } before = .ok s) (hr : f.evaluate s d.expression = .ok r)
    (hfallback : r.isFallback = false) : f.format arguments = g.format arguments := by
  have hdeclare : f.declare { arguments } g.message.declarations =
      f.declare { arguments } f.message.declarations := by rw [hdeclarations]
  refine format_eq_of_agree h (agree_resolve h.toCallsLike hdeclare hbody fun t ht i j hij => ?_)
  rw [hd, declare_append, hs] at ht
  exact agree_resolveItem_of_inlines hdistinct hmentions hr hfallback ht hij

/-- To write the expression of a declared name in place of the name, wherever some patterns show
it alone, gives a message with the same text, if the expression has a value that is not a fallback
and if nothing that it mentions is declared from there on. -/
theorem format_inlined {locale source : String} {functions : FunctionTable} {localizer : Localizer}
    {isolates : Bool} (hf : compile locale source functions localizer isolates = .ok f)
    (hd : f.message.declarations = before ++ d :: rest)
    (hmentions : ∀ e ∈ d :: rest, ¬ d.expression.Mentions e.name) {body : Body}
    (hbody : f.message.body.Corresponds (PatternItem.Inlines d.name d.expression) body) :
    let m : Message := ⟨f.message.declarations, body⟩
    (∃ source' g, compile locale source' functions localizer isolates = .ok g ∧
      g.message.unplaced = m.unplaced) ∧
    ∀ source' g, compile locale source' functions localizer isolates = .ok g →
      g.message.unplaced = m.unplaced → ∀ arguments s r,
        f.declare { arguments } before = .ok s → f.evaluate s d.expression = .ok r →
          r.isFallback = false → g.format arguments = f.format arguments := by
  intro m
  obtain ⟨hdeclarations, hnames, hbodyWellFormed⟩ := wellFormed_of_compile hf
  constructor
  · have hexpression : d.expression.WellFormed :=
      (hdeclarations d (hd ▸ List.mem_append_right _ List.mem_cons_self)).expression
    have hwritten : body.WellFormed := by
      refine hbodyWellFormed.of_corresponds ?_ ?_ hbody
      · rintro i j (_ | _) hi
        · exact hi
        · exact hexpression
      · rintro i j (_ | _) hj
        · exact hj
        · exact hj
    have hm : m.WellFormed := ⟨hdeclarations, hnames, hwritten⟩
    exact hm.exists_compile ..
  · intro source' g hg hm arguments s r hs hr hfallback
    have hdistinct : ∀ e ∈ rest, e.name ≠ d.name := by
      rw [hd, List.map_append, List.map_cons] at hnames
      have hlater := (List.nodup_cons.mp (List.nodup_append.mp hnames).2.1).1
      exact fun e he heq => hlater (heq ▸ List.mem_map_of_mem he)
    have hinlined := format_inlines (showsLike_withMessage f m) hd hdistinct hmentions rfl hbody hs
      hr hfallback
    rw [(format_of_compile hf hg hm arguments).1, hinlined]

/-- The text of the argument, under another name. -/
def textBinding : Declaration :=
  ⟨.binding, "y", ⟨some (.variable "n"), some ⟨"string", []⟩, ⟨12, 24, 1, 13⟩⟩⟩

/-- A choice by the name, and the name shown twice, the second time perhaps as its expression. -/
def twiceBody (e : Expression) : Body :=
  .choice ⟨["y"],
    [⟨[.literal "a"], [], ⟨35, 41, 1, 36⟩⟩,
      ⟨[.catchAll],
        [.expression ⟨some (.variable "y"), none, ⟨46, 50, 1, 47⟩⟩, .text " or ", .expression e],
        ⟨42, e.span.stop + 2, 1, 43⟩⟩],
    ⟨31, e.span.stop + 2, 1, 32⟩⟩

def twiceFormatter (placeholder : String) (e : Expression) : Formatter where
  locale := "en"
  source := ".local $y = \x7b$n :string\x7d .match $y a \x7b\x7b\x7d\x7d * \x7b\x7b\x7b$y\x7d or " ++
    placeholder ++ "\x7d\x7d"
  message := ⟨[textBinding], twiceBody e⟩
  functions := .builtins
  localizer := .basic
  isolates := true

theorem format_inlined_twice :
    let f := twiceFormatter "\x7b$y\x7d" ⟨some (.variable "y"), none, ⟨54, 58, 1, 55⟩⟩
    let g := twiceFormatter "\x7b$n :string\x7d"
      { textBinding.expression with span := ⟨54, 66, 1, 55⟩ }
    let arguments : Arguments := [("n", .string "b")]
    compile "en" f.source .builtins .basic true = .ok f ∧
      compile "en" g.source .builtins .basic true = .ok g ∧
      ¬ textBinding.expression.Mentions textBinding.name ∧
      f.evaluate { arguments } textBinding.expression = .ok (.string "b") ∧
      g.format arguments = f.format arguments := by
  intro f g arguments
  have hf : compile "en" f.source .builtins .basic true = .ok f :=
    compile_of_parse (Outcome.eq_ok_of_toOption (by decide +kernel))
  have hg : compile "en" g.source .builtins .basic true = .ok g :=
    compile_of_parse (Outcome.eq_ok_of_toOption (by decide +kernel))
  have hmentions : ¬ textBinding.expression.Mentions textBinding.name := by
    rintro (hoperand | ⟨use, huse, o, ho, -⟩)
    · exact absurd (Option.some.inj hoperand) (by decide)
    · cases huse
      cases ho
  have hr : f.evaluate { arguments } textBinding.expression = .ok (.string "b") := rfl
  have hd : f.message.declarations = [] ++ textBinding :: [] := rfl
  have hbody : f.message.body.Corresponds
      (PatternItem.Inlines textBinding.name textBinding.expression)
      (twiceBody textBinding.expression) := by
    refine .choice rfl (.cons ⟨rfl, .nil⟩ (.cons ⟨rfl, ?_⟩ .nil))
    exact .cons (.keep _) (.cons (.keep _) (.cons (.inline rfl rfl) .nil))
  refine ⟨hf, hg, hmentions, hr, ?_⟩
  exact (format_inlined hf hd (List.forall_mem_singleton.mpr hmentions) hbody).2 _ g hg rfl
    arguments _ _ rfl hr rfl

end Formatter

end Phrasebook
