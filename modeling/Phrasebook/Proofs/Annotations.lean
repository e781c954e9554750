import Phrasebook.Proofs.Declarations

/-!
Values that no function is named for, and the functions named after their kinds.

A number without a function goes through the function `number` of the table, so it may as well be
annotated with it, whatever that function is. A text without a function is shown as it is and does
not go through the table; to annotate it with `string` changes nothing as long as the function of
that name keeps texts (`Formatter.format_annotated`). One that does not is called only where the
annotation is written (`Formatter.format_ne_of_annotated`).
-/

namespace Phrasebook

/-! ## Annotated messages -/

/-- The expression with a function that has no options. -/
def Expression.annotated (e : Expression) (name : String) : Expression :=
  { e with function := some ⟨name, []⟩ }

/-- The function gives each text as it is, if it has no options. -/
def MessageFunction.KeepsTexts (g : MessageFunction) : Prop :=
  ∀ call s, g call [] (some (.string s)) = .ok (.string s)

theorem MessageFunction.keepsTexts_string : MessageFunction.string.KeepsTexts := fun _ _ => rfl

section

variable (texts : Prop) (arguments : Arguments) (declared : List String)

/-- The value of an operand that is a literal or an argument that no declaration hides. -/
inductive Operand.Gives : Operand → Value → Prop
  | literal (s : String) : Gives (.literal s) (.string s)
  | argument {name : String} {v : Value} :
      name ∉ declared → arguments.find? name = some v → Gives (.variable name) v

/-- The second expression is the first one, which has no function, with the function named after
the kind of its value. Whether texts get theirs is left open. -/
inductive Expression.Annotates : Expression → Expression → Prop
  | number {e : Expression} {o : Operand} {x : Number} :
      e.operand = some o → e.function = none → o.Gives arguments declared (.number x) →
        Annotates e (e.annotated "number")
  | text {e : Expression} {o : Operand} {s : String} :
      e.operand = some o → e.function = none → o.Gives arguments declared (.string s) → texts →
        Annotates e (e.annotated "string")

inductive Declaration.Annotates : Declaration → Declaration → Prop
  | keep (d : Declaration) : Annotates d d
  | annotate {d : Declaration} {e : Expression} :
      d.expression.Annotates texts arguments declared e → Annotates d { d with expression := e }

inductive PatternItem.Annotates : PatternItem → PatternItem → Prop
  | keep (item : PatternItem) : Annotates item item
  | annotate {e e' : Expression} :
      e.Annotates texts arguments declared e' → Annotates (.expression e) (.expression e')

/-- Some expressions of the second message are annotated that have no function in the first. -/
structure Message.Annotates (m n : Message) : Prop where
  declarations : List.Forall₂
    (Declaration.Annotates texts arguments (m.declarations.map (·.name)))
    m.declarations n.declarations
  body : m.body.Corresponds
    (PatternItem.Annotates texts arguments (m.declarations.map (·.name))) n.body

end

section

variable {texts : Prop} {arguments : Arguments} {declared : List String}

theorem Expression.Annotates.operand_eq {e e' : Expression}
    (h : e.Annotates texts arguments declared e') : e'.operand = e.operand := by
  cases h <;> rfl

theorem Expression.Annotates.source_eq {e e' : Expression}
    (h : e.Annotates texts arguments declared e') : e'.source = e.source := by
  cases h <;> simp [Expression.source, Expression.annotated, *]

theorem isIdentifier_number : IsIdentifier "number" :=
  .inl ⟨'n', _, rfl, rfl, List.all_eq_true.mp (by decide)⟩

theorem isIdentifier_string : IsIdentifier "string" :=
  .inl ⟨'s', _, rfl, rfl, List.all_eq_true.mp (by decide)⟩

theorem Expression.WellFormed.annotated {e : Expression} (he : e.WellFormed) {name : String}
    (hname : IsIdentifier name) : (e.annotated name).WellFormed := by
  refine ⟨he.operand, ?_, .inr rfl⟩
  rintro _ ⟨⟩
  exact ⟨hname, fun _ ho => (List.not_mem_nil ho).elim, fun _ ho => (List.not_mem_nil ho).elim,
    List.nodup_nil⟩

theorem Expression.WellFormed.of_annotates {e e' : Expression} (he : e.WellFormed)
    (h : e.Annotates texts arguments declared e') : e'.WellFormed := by
  cases h with
  | number => exact he.annotated isIdentifier_number
  | text => exact he.annotated isIdentifier_string

theorem Declaration.WellFormed.of_annotates {d d' : Declaration}
    (h : d.Annotates texts arguments declared d') (hd : d.WellFormed) : d'.WellFormed := by
  cases h with
  | keep => exact hd
  | annotate he =>
    exact ⟨hd.name, hd.expression.of_annotates he,
      fun hkind => he.operand_eq.trans (hd.input hkind)⟩

theorem Message.WellFormed.of_annotates {m n : Message} (hm : m.WellFormed)
    (h : m.Annotates texts arguments n) : n.WellFormed := by
  refine ⟨?_, ?_, hm.body.of_corresponds ?_ ?_ h.body⟩
  · exact forall_mem_of_forall₂ h.declarations (fun _ _ => Declaration.WellFormed.of_annotates)
      hm.declarations
  · have hnames : m.declarations.map (·.name) = n.declarations.map (·.name) :=
      map_eq_of_forall₂ (h.declarations.imp fun _ _ hd => by cases hd <;> rfl)
    exact hnames ▸ hm.distinct
  · rintro i j (_ | he) hi
    · exact hi
    · exact Expression.WellFormed.of_annotates hi he
  · rintro i j (_ | _) hj
    · exact hj
    · exact hj

end

namespace Formatter

/-! ## Evaluation -/

section

variable {f : Formatter} {s : Scope} {texts : Prop} {declared : List String}

theorem evaluate_of_gives {e : Expression} {o : Operand} {v : Value} (hoperand : e.operand = some o)
    (hs : ∀ name, name ∉ declared → s.locals.find? name = none)
    (h : o.Gives s.arguments declared v) :
    f.evaluate s e = f.apply s e.source e.function (some v) := by
  cases h with
  | literal text => rw [evaluate, hoperand]
  | @argument name _ hname hfind => simp only [evaluate, hoperand, hs name hname, hfind]

variable (hnumber : f.functions.contains "number" = true)
  (hstring : texts → ∃ g, f.functions.find? "string" = some g ∧ g.KeepsTexts)
  (hs : ∀ name, name ∉ declared → s.locals.find? name = none)
include hnumber hstring hs

/-- An annotated expression has the value that it has without the annotation, or fails alike. -/
theorem evaluate_annotates {e e' : Expression} (h : e.Annotates texts s.arguments declared e') :
    f.evaluate s e' = f.evaluate s e := by
  have hsource := h.source_eq
  cases h with
  | @number o x hoperand hfunction hgives =>
    have hannotated : (e.annotated "number").operand = some o := hoperand
    rw [evaluate_of_gives hoperand hs hgives, evaluate_of_gives hannotated hs hgives, hsource,
      hfunction]
    simp only [apply, implicit, hnumber]
    rfl
  | @text o t hoperand hfunction hgives htexts =>
    obtain ⟨g, hg, hkeeps⟩ := hstring htexts
    have hannotated : (e.annotated "string").operand = some o := hoperand
    rw [evaluate_of_gives hoperand hs hgives, evaluate_of_gives hannotated hs hgives, hsource,
      hfunction]
    simp only [apply, implicit, Expression.annotated, call, hg]
    exact hkeeps _ _

theorem resolveItem_annotates {i j : PatternItem}
    (h : i.Annotates texts s.arguments declared j) :
    f.resolveItem s j = f.resolveItem s i := by
  cases h with
  | keep => rfl
  | annotate he =>
    rw [resolveItem, resolveItem, evaluate_annotates hnumber hstring hs he, he.source_eq]

/-- Annotated declarations bind the same values as the others, or fail alike. -/
theorem declare_annotates {ds es : List Declaration} (hdeclared : ∀ d ∈ ds, d.name ∈ declared)
    (h : List.Forall₂ (Declaration.Annotates texts s.arguments declared) ds es) :
    f.declare s es = f.declare s ds := by
  generalize harguments : s.arguments = arguments at h
  induction h generalizing s with
  | nil => rfl
  | @cons d e ds es hd _ ih =>
    obtain ⟨hname, hdeclared⟩ := List.forall_mem_cons.mp hdeclared
    have hvalue : f.evaluate s e.expression = f.evaluate s d.expression := by
      cases hd with
      | keep => rfl
      | annotate he => exact evaluate_annotates hnumber hstring hs (harguments ▸ he)
    have hbinds : e.name = d.name := by cases hd <;> rfl
    rw [declare, declare, hvalue, hbinds]
    refine congrArg _ (funext fun value => ih ?_ hdeclared harguments)
    intro name hfree
    have hne : name ≠ d.name := fun heq => hfree (heq ▸ hname)
    exact (Table.find?_insert_of_ne _ _ hne).trans (hs name hfree)

end

/-! ## Messages -/

variable {f g : Formatter} {texts : Prop} {arguments : Arguments}

theorem resolve_annotates (h : f.CallsLike g) (hnumber : f.functions.contains "number" = true)
    (hstring : texts → ∃ k, f.functions.find? "string" = some k ∧ k.KeepsTexts)
    (hm : f.message.Annotates texts arguments g.message) :
    f.resolve arguments = g.resolve arguments := by
  have hdeclare : f.declare { arguments } g.message.declarations =
      f.declare { arguments } f.message.declarations :=
    declare_annotates hnumber hstring (fun _ _ => rfl) (fun _ hd => List.mem_map_of_mem hd)
      hm.declarations
  have hagree : Outcome.Agree (List.Forall₂ Eq) (f.resolve arguments) (g.resolve arguments) := by
    refine agree_resolve h hdeclare hm.body fun s hs i j hij => ?_
    have hfree : ∀ name, name ∉ f.message.declarations.map (·.name) →
        s.locals.find? name = none := fun name hname =>
      locals_declare (fun d hd heq => hname (List.mem_map.mpr ⟨d, hd, heq⟩)) hs
    have harguments : s.arguments = arguments := arguments_declare hs
    rw [← harguments] at hij
    rw [resolveItem_annotates hnumber hstring hfree hij]
    exact Outcome.agree_refl (fun _ => rfl) _
  rw [List.forall₂_eq_eq_eq] at hagree
  exact hagree.eq

/-- To annotate expressions that have no function, with `number` where the value is a number and
with `string` where it is a text, changes nothing of what a message shows, failures included. The
table has any function `number`; its function `string` keeps texts, if texts are annotated. -/
theorem format_annotated {locale source : String} {functions : FunctionTable}
    {localizer : Localizer} {isolates : Bool}
    (hf : compile locale source functions localizer isolates = .ok f)
    (hnumber : functions.contains "number" = true)
    (hstring : texts → ∃ k, functions.find? "string" = some k ∧ k.KeepsTexts) {m : Message}
    (hm : f.message.Annotates texts arguments m) :
    (∃ source' g, compile locale source' functions localizer isolates = .ok g ∧
      g.message.unplaced = m.unplaced) ∧
    ∀ source' g, compile locale source' functions localizer isolates = .ok g →
      g.message.unplaced = m.unplaced →
        g.format arguments = f.format arguments ∧
          g.formatToParts arguments = f.formatToParts arguments := by
  have hfunctions := functions_of_compile hf
  constructor
  · exact ((wellFormed_of_compile hf).of_annotates hm).exists_compile ..
  · intro source' g hg hunplaced
    have hshows := showsLike_withMessage f m
    have hresolve : f.resolve arguments = { f with message := m }.resolve arguments :=
      resolve_annotates hshows.toCallsLike (hfunctions ▸ hnumber) (hfunctions ▸ hstring) hm
    have hannotated := format_eq_of_resolve_eq hshows hresolve
    have hsame := format_of_compile hf hg hunplaced arguments
    exact ⟨hsame.1.trans hannotated.1.symm, hsame.2.trans hannotated.2.symm⟩

/-- A declared text, a number and a text, with these functions. -/
def kindsMessage (number text : Option FunctionUse) (a y n t : Span) : Message :=
  ⟨[⟨.binding, "y", ⟨some (.literal "a"), text, a⟩⟩],
    .pattern [.expression ⟨some (.variable "y"), none, y⟩,
      .expression ⟨some (.variable "n"), number, n⟩, .expression ⟨some (.variable "t"), text, t⟩]⟩

/-- A function `number` that shows the source of its call. -/
def kindsFormatter (source : String) (message : Message) : Formatter where
  locale := "en"
  source := source
  message := message
  functions :=
    Table.insert FunctionTable.builtins "number" (.ofText fun call _ _ => "#" ++ call.source)
  localizer := .basic
  isolates := true

theorem format_annotated_kinds :
    let f := kindsFormatter ".local $y = {|a|} {{{$y}{$n}{$t}}}"
      (kindsMessage none none ⟨12, 17, 1, 13⟩ ⟨20, 24, 1, 21⟩ ⟨24, 28, 1, 25⟩ ⟨28, 32, 1, 29⟩)
    let g := kindsFormatter
      ".local $y = {|a| :string} {{{$y}{$n :number}{$t :string}}}"
      (kindsMessage (some ⟨"number", []⟩) (some ⟨"string", []⟩) ⟨12, 25, 1, 13⟩ ⟨28, 32, 1, 29⟩
        ⟨32, 44, 1, 33⟩ ⟨44, 56, 1, 45⟩)
    let arguments : Arguments := [("n", .number .nan), ("t", .string "b")]
    compile "en" f.source f.functions .basic true = .ok f ∧
      compile "en" g.source f.functions .basic true = .ok g ∧
      f.functions.contains "number" = true ∧
      f.functions.find? "string" = some .string ∧
      g.format arguments = f.format arguments ∧
      g.formatToParts arguments = f.formatToParts arguments := by
  intro f g arguments
  have hf : compile "en" f.source f.functions .basic true = .ok f :=
    compile_of_parse (Outcome.eq_ok_of_toOption (by decide +kernel))
  have hg : compile "en" g.source f.functions .basic true = .ok g :=
    compile_of_parse (Outcome.eq_ok_of_toOption (by decide +kernel))
  have hm : f.message.Annotates True arguments
      (kindsMessage (some ⟨"number", []⟩) (some ⟨"string", []⟩) ⟨12, 17, 1, 13⟩ ⟨20, 24, 1, 21⟩
        ⟨24, 28, 1, 25⟩ ⟨28, 32, 1, 29⟩) := by
    refine ⟨.cons ?_ .nil, .pattern (.cons (.keep _) (.cons ?_ (.cons ?_ .nil)))⟩
    · exact .annotate (.text rfl rfl (.literal "a") trivial)
    · exact .annotate (.number rfl rfl (.argument (by decide) rfl))
    · exact .annotate (.text rfl rfl (.argument (by decide) rfl) trivial)
  have hstring : f.functions.find? "string" = some .string := rfl
  have hkeeps : True → ∃ k, f.functions.find? "string" = some k ∧ k.KeepsTexts :=
    fun _ => ⟨_, hstring, MessageFunction.keepsTexts_string⟩
  exact ⟨hf, hg, rfl, hstring, (format_annotated hf rfl hkeeps hm).2 _ g hg rfl⟩

/-! ## Functions that do not keep texts -/

/-- The text of the operand in capitals. -/
def capitals : MessageFunction := .ofText fun _ _ operand =>
  match operand with
  | some v => String.ofList (v.display.toList.map Char.toUpper)
  | none => ""

/-- An argument, with a function or without one, where `string` stands for `capitals`. -/
def capitalsFormatter (source : String) (function : Option FunctionUse) (stop : Nat) :
    Formatter where
  locale := "en"
  source := source
  message := ⟨[], .pattern [.expression ⟨some (.variable "x"), function, ⟨0, stop, 1, 1⟩⟩]⟩
  functions := Table.insert FunctionTable.builtins "string" capitals
  localizer := .basic
  isolates := false

/-- A text without a function does not go through the function `string` of the table, so to annotate
it calls a function that was not called before. -/
theorem format_ne_of_annotated :
    let f := capitalsFormatter "{$x}" none 4
    let g := capitalsFormatter "{$x :string}" (some ⟨"string", []⟩) 12
    let m := (capitalsFormatter "" (some ⟨"string", []⟩) 4).message
    let arguments : Arguments := [("x", .string "a")]
    compile "en" f.source f.functions .basic false = .ok f ∧
      f.functions.contains "number" = true ∧ f.functions.contains "string" = true ∧
      f.message.Annotates True arguments m ∧
      compile "en" g.source f.functions .basic false = .ok g ∧
      g.message.unplaced = m.unplaced ∧
      f.format arguments = .ok "a" ∧ g.format arguments = .ok "A" := by
  intro f g m arguments
  have hf : compile "en" f.source f.functions .basic false = .ok f :=
    compile_of_parse (Outcome.eq_ok_of_toOption (by decide +kernel))
  have hg : compile "en" g.source f.functions .basic false = .ok g :=
    compile_of_parse (Outcome.eq_ok_of_toOption (by decide +kernel))
  have hm : f.message.Annotates True arguments m :=
    ⟨.nil, .pattern (.cons (.annotate (.text rfl rfl (.argument (by decide) rfl) trivial)) .nil)⟩
  exact ⟨hf, rfl, rfl, hm, hg, rfl, congrArg Except.ok (by decide +kernel),
    congrArg Except.ok (by decide +kernel)⟩

end Formatter

end Phrasebook
