import Phrasebook.Proofs.Selection
import Phrasebook.Proofs.Shadowing
import Phrasebook.Proofs.SourceSpans

/-!
Messages without their arguments.

A variable without a value is an echo of itself, and so is a declared name whose expression has such
an operand: no function is asked, and none has to be there. Where all expressions have variables as
operands and all arguments are missing, every declared name is an echo (`Formatter.declare_missing`),
every selector is empty and only the variants that catch all are met. The message is therefore
shown with an echo in each placeholder. Main statement: `Formatter.format_missing`.
-/

namespace Phrasebook

/-! ## The names of a message -/

def PatternItem.Mentions (x : String) : PatternItem → Prop
  | .text _ => False
  | .expression e => e.Mentions x
  | .markup m => OptionsTake x m.options

/-- The variable chooses among variants, or a declaration or an item of a pattern mentions it. -/
inductive Message.Mentions (m : Message) (x : String) : Prop
  | selector {c : Matcher} : m.body = .choice c → x ∈ c.selectors → Mentions m x
  | item {item : PatternItem} : item ∈ m.items → item.Mentions x → Mentions m x

/-- The pattern of a body when there is nothing to choose by: the only one, or that of the first
variant that catches all. -/
def Body.default? : Body → Option Pattern
  | .pattern p => some p
  | .choice m => (m.variants.find? (·.isCatchAll)).map (·.pattern)

theorem Body.mem_items_of_default? {b : Body} {p : Pattern} (h : b.default? = some p)
    {item : PatternItem} (hitem : item ∈ p) : item ∈ b.items := by
  cases b with
  | pattern q =>
    cases h
    exact hitem
  | choice m =>
    obtain ⟨v, hv, rfl⟩ := Option.map_eq_some_iff.mp h
    exact List.mem_flatMap.mpr ⟨v, List.mem_of_find?_eq_some hv, hitem⟩

theorem Variant.isCatchAll_iff (v : Variant) :
    v.isCatchAll = true ↔ ∀ k ∈ v.keys, k = .catchAll := by
  simp [Variant.isCatchAll]

/-! ## Echoes -/

/-- The value is the echo of a placeholder. -/
def Resolved.IsEcho (r : Resolved) : Prop := ∃ source, r = .fallback source

/-- What a placeholder shows of a missing variable. -/
def ExpressionPart.echoOf (name : String) : ExpressionPart :=
  { kind := "fallback", source := some ("$" ++ name) }

theorem ExpressionPart.text_echoOf (name : String) :
    (echoOf name).text = "\x7b$" ++ name ++ "\x7d" := by
  rw [String.append_assoc]
  rfl

/-- The item where no variable has a value: echoes in the placeholders, and markup with the options
that are literals. -/
def PatternItem.echo : PatternItem → ResolvedItem
  | .text s => .text s
  | .expression e => .expression e.source (.fallback e.source)
  | .markup m => .markup m (Formatter.resolveOptions ⟨[], []⟩ m.options)

namespace Formatter

variable {f : Formatter} {s : Scope}

theorem evaluate_missing (hs : s.locals.Every Resolved.IsEcho) {e : Expression} {x : String}
    (hoperand : e.operand = some (.variable x)) (hx : s.arguments.find? x = none) :
    f.evaluate s e = .ok (.fallback e.source) := by
  simp only [evaluate, hoperand, hx]
  cases hfind : s.locals.find? x with
  | none => rfl
  | some bound =>
    obtain ⟨source, rfl⟩ := hs x bound hfind
    rfl

theorem optionValue_missing (hs : s.locals.Every Resolved.IsEcho) {x : String}
    (hx : s.arguments.find? x = none) : optionValue s (.variable x) = none := by
  rw [optionValue, hx]
  cases hfind : s.locals.find? x with
  | none => rfl
  | some bound =>
    obtain ⟨source, rfl⟩ := hs x bound hfind
    rfl

theorem selector_missing (hs : s.locals.Every Resolved.IsEcho) {x : String}
    (hx : s.arguments.find? x = none) : f.selector s x = .ok .none := by
  rw [selector, hx]
  cases hfind : s.locals.find? x with
  | none => rfl
  | some bound =>
    obtain ⟨source, rfl⟩ := hs x bound hfind
    rfl

theorem resolveItem_missing (hs : s.locals.Every Resolved.IsEcho) {item : PatternItem}
    (hvariable : ∀ e, item = .expression e → ∃ x, e.operand = some (.variable x))
    (hmissing : ∀ x, item.Mentions x → s.arguments.find? x = none) :
    f.resolveItem s item = .ok item.echo := by
  cases item with
  | text text => rfl
  | expression e =>
    obtain ⟨x, hx⟩ := hvariable e rfl
    rw [resolveItem, evaluate_missing hs hx (hmissing x (.inl hx))]
    rfl
  | markup m =>
    have hoptions : resolveOptions s m.options = resolveOptions ⟨[], []⟩ m.options := by
      refine resolveOptions_congr fun o ho => ?_
      cases hvalue : o.value with
      | literal text => rfl
      | «variable» x => exact optionValue_missing hs (hmissing x ⟨o, ho, hvalue⟩)
    rw [resolveItem, hoptions]
    rfl

/-- Declarations whose operands are all missing make all declared names echoes. -/
theorem declare_missing (hs : s.locals.Every Resolved.IsEcho) {ds : List Declaration}
    (hds : ∀ d ∈ ds, ∃ x, d.expression.operand = some (.variable x) ∧
      s.arguments.find? x = none) :
    ∃ t, f.declare s ds = .ok t ∧ t.arguments = s.arguments ∧
      t.locals.Every Resolved.IsEcho := by
  induction ds generalizing s with
  | nil => exact ⟨s, rfl, rfl, hs⟩
  | cons d ds ih =>
    obtain ⟨⟨x, hoperand, hx⟩, hds⟩ := List.forall_mem_cons.mp hds
    rw [declare, evaluate_missing hs hoperand hx]
    exact ih (hs.insert d.name ⟨_, rfl⟩) hds

/-! ## Selection -/

/-- Keys that meet selectors without a value all catch all. -/
theorem MeetsAll.of_none {keys : List VariantKey} {selectors : List Selector} {ranks : List Nat}
    (h : f.MeetsAll keys selectors ranks) (hnone : ∀ s ∈ selectors, s = .none) :
    (∀ k ∈ keys, k = .catchAll) ∧ ranks = List.replicate selectors.length 2 := by
  induction h with
  | nil => exact ⟨fun k hk => (List.not_mem_nil hk).elim, rfl⟩
  | cons hkey _ ih =>
    obtain ⟨rfl, hothers⟩ := List.forall_mem_cons.mp hnone
    obtain ⟨hkeys, rfl⟩ := ih hothers
    cases hkey
    exact ⟨List.forall_mem_cons.mpr ⟨rfl, hkeys⟩, rfl⟩

/-- Without values for the selectors, the first variant that catches all is chosen. -/
theorem Chosen.find?_of_none {selectors : List Selector} {before after : List Variant}
    {v : Variant} {ranks : List Nat} (h : f.Chosen selectors before v after ranks)
    (hkeys : ∀ w ∈ before, w.keys.length = selectors.length)
    (hnone : ∀ s ∈ selectors, s = .none) :
    (before ++ v :: after).find? (·.isCatchAll) = some v := by
  obtain ⟨hall, hranks⟩ := h.meets.of_none hnone
  refine List.find?_eq_some_iff_append.mpr ⟨v.isCatchAll_iff.mpr hall, before, after, rfl, ?_⟩
  intro w hw
  rw [Bool.not_eq_true', Bool.eq_false_iff]
  intro hcatchAll
  obtain ⟨others, hothers⟩ := f.meetsAll_of_catchAll (w.isCatchAll_iff.mp hcatchAll) (hkeys w hw)
  have hless : ranks < others := h.before w hw others hothers
  rw [hranks, (hothers.of_none hnone).2] at hless
  exact List.lt_irrefl _ hless

theorem bodyPattern_missing {locale source : String} {functions : FunctionTable}
    {localizer : Localizer} {isolates : Bool}
    (hf : compile locale source functions localizer isolates = .ok f)
    (hs : s.locals.Every Resolved.IsEcho)
    (hmissing : ∀ c, f.message.body = .choice c → ∀ x ∈ c.selectors,
      s.arguments.find? x = none) :
    ∃ p, f.message.body.default? = some p ∧ f.bodyPattern s f.message.body = .ok p := by
  cases hbody : f.message.body with
  | pattern p => exact ⟨p, rfl, rfl⟩
  | choice m =>
    have hselectors : m.selectors.mapM (f.selector s) =
        .ok (m.selectors.map fun _ => Selector.none) :=
      (Outcome.mapM_congr fun x hx => selector_missing hs (hmissing m hbody x hx)).trans
        List.mapM_pure
    have hnone : ∀ t ∈ m.selectors.map fun _ => Selector.none, t = .none :=
      List.forall_mem_map.mpr fun _ _ => rfl
    obtain ⟨hkeys, hcatchAll⟩ := variants_of_compile hf hbody
    rw [← Outcome.length_of_mapM_eq_ok hselectors] at hkeys
    obtain ⟨ranks, v, hv, before, after, hsplit, hchosen⟩ :=
      exists_bestVariant (f := f) hkeys hcatchAll
    have hbefore : ∀ w ∈ before, w.keys.length = _ := fun w hw =>
      hkeys w (hsplit ▸ List.mem_append_left _ hw)
    have hfind : m.variants.find? (·.isCatchAll) = some v :=
      hsplit ▸ hchosen.find?_of_none hbefore hnone
    refine ⟨v.pattern, congrArg (Option.map _) hfind, ?_⟩
    rw [bodyPattern, selectPattern_eq hselectors, hv]

/-! ## Messages -/

theorem resolve_missing {locale source : String} {functions : FunctionTable}
    {localizer : Localizer} {isolates : Bool}
    (hf : compile locale source functions localizer isolates = .ok f)
    (hvariable : ∀ e, .expression e ∈ f.message.items → ∃ x, e.operand = some (.variable x))
    {arguments : Arguments} (hmissing : ∀ x, f.message.Mentions x → arguments.find? x = none) :
    ∃ p, f.message.body.default? = some p ∧
      f.resolve arguments = .ok (p.map PatternItem.echo) := by
  have hdeclared : ∀ d ∈ f.message.declarations, ∃ x,
      d.expression.operand = some (.variable x) ∧ arguments.find? x = none := by
    intro d hd
    have hitem : .expression d.expression ∈ f.message.items :=
      List.mem_append_left _ (List.mem_map_of_mem hd)
    obtain ⟨x, hx⟩ := hvariable _ hitem
    exact ⟨x, hx, hmissing x (.item hitem (.inl hx))⟩
  obtain ⟨s, hs, harguments, hlocals⟩ :=
    declare_missing (f := f) (s := { arguments }) Table.every_nil hdeclared
  obtain ⟨p, hdefault, hpattern⟩ := bodyPattern_missing hf hlocals fun c hc x hx => by
    rw [harguments]
    exact hmissing x (.selector hc hx)
  have hitems : p.mapM (f.resolveItem s) = .ok (p.map PatternItem.echo) := by
    refine (Outcome.mapM_congr fun item hitem => ?_).trans List.mapM_pure
    have hmem : item ∈ f.message.items :=
      List.mem_append_right _ (Body.mem_items_of_default? hdefault hitem)
    refine resolveItem_missing hlocals (fun e he => hvariable e (he ▸ hmem)) fun x hx => ?_
    rw [harguments]
    exact hmissing x (.item hmem hx)
  refine ⟨p, hdefault, ?_⟩
  rw [resolve, hs]
  change (f.bodyPattern s f.message.body >>= _) = _
  rw [hpattern]
  exact hitems

/-- A message whose operands are all variables, formatted without any of the arguments that it
mentions, is shown with an echo of its operand in each placeholder. This is so whatever the
functions are, hence also where each of them fails: none is called. -/
theorem format_missing {locale source : String} {functions : FunctionTable}
    {localizer : Localizer} {isolates : Bool}
    (hf : compile locale source functions localizer isolates = .ok f)
    (hvariable : ∀ e, .expression e ∈ f.message.items → ∃ x, e.operand = some (.variable x))
    {arguments : Arguments} (hmissing : ∀ x, f.message.Mentions x → arguments.find? x = none) :
    ∃ p, f.message.body.default? = some p ∧
      (∀ others : FunctionTable,
        { f with functions := others }.format arguments =
            .ok (String.join (p.map fun item => f.itemText item.echo)) ∧
          { f with functions := others }.formatToParts arguments =
            .ok (p.flatMap fun item => f.itemParts item.echo)) ∧
      ∀ e, .expression e ∈ p → ∃ x, e.operand = some (.variable x) ∧
        f.itemParts (PatternItem.expression e).echo =
          (if f.isolates then
            [.isolation isolateStart, .expression (.echoOf x), .isolation isolateEnd]
          else [.expression (.echoOf x)]) ∧
        (ExpressionPart.echoOf x).text = "\x7b$" ++ x ++ "\x7d" := by
  obtain ⟨p, hp, -⟩ := resolve_missing hf hvariable hmissing
  refine ⟨p, hp, fun others => ?_, fun e he => ?_⟩
  · have hg : compile locale source others localizer isolates =
        .ok { f with functions := others } := by
      obtain ⟨m, hm, hf⟩ := Outcome.bind_eq_ok hf
      cases hf
      exact compile_of_parse hm
    obtain ⟨q, hq, hresolve⟩ := resolve_missing hg hvariable hmissing
    cases hp.symm.trans hq
    constructor
    · rw [format, hresolve]
      change Except.ok (String.join ((p.map PatternItem.echo).map f.itemText)) = _
      rw [List.map_map]
      rfl
    · rw [formatToParts, hresolve]
      change Except.ok ((p.map PatternItem.echo).flatMap f.itemParts) = _
      rw [List.flatMap_map]
  · have hitem : .expression e ∈ f.message.items :=
      List.mem_append_right _ (Body.mem_items_of_default? hp he)
    obtain ⟨x, hx⟩ := hvariable e hitem
    refine ⟨x, hx, ?_, ExpressionPart.text_echoOf x⟩
    rw [PatternItem.echo, Expression.source, hx]
    rfl

/-- A local of a missing argument, chosen by and shown, with a function that there is not. -/
def lackingFormatter : Formatter where
  locale := "en"
  source := ".local $y = \x7b$n :nope\x7d .match $y one \x7b\x7b\x7d\x7d " ++
    "* \x7b\x7b\x7b$y :nope\x7d\x7b#b o=$n p=1 /\x7d\x7d\x7d"
  message :=
    ⟨[⟨.binding, "y", ⟨some (.variable "n"), some ⟨"nope", []⟩, ⟨12, 22, 1, 13⟩⟩⟩],
      .choice ⟨["y"],
        [⟨[.literal "one"], [], ⟨33, 41, 1, 34⟩⟩,
          ⟨[.catchAll],
            [.expression ⟨some (.variable "y"), some ⟨"nope", []⟩, ⟨46, 56, 1, 47⟩⟩,
              .markup ⟨.standalone, "b", [⟨"o", .variable "n"⟩, ⟨"p", .literal "1"⟩],
                ⟨56, 71, 1, 57⟩⟩],
            ⟨42, 73, 1, 43⟩⟩],
        ⟨29, 73, 1, 30⟩⟩⟩
  functions := []
  localizer := .basic
  isolates := true

theorem format_missing_lacking :
    let f := lackingFormatter
    compile "en" f.source [] .basic true = .ok f ∧
      (∀ e, .expression e ∈ f.message.items → ∃ x, e.operand = some (.variable x)) ∧
      f.format [] = .ok "\u2068\x7b$y\x7d\u2069" ∧
      f.formatToParts [] = .ok [.isolation isolateStart, .expression (.echoOf "y"),
        .isolation isolateEnd, .markup .standalone "b" [("p", .string "1")]] := by
  intro f
  have hf : compile "en" f.source [] .basic true = .ok f :=
    compile_of_parse (Outcome.eq_ok_of_toOption (by decide +kernel))
  have hvariable : ∀ e, .expression e ∈ f.message.items → ∃ x, e.operand = some (.variable x) := by
    intro e he
    rcases List.mem_cons.mp he with h | he
    · cases h
      exact ⟨"n", rfl⟩
    rcases List.mem_cons.mp he with h | he
    · cases h
      exact ⟨"y", rfl⟩
    · cases List.mem_singleton.mp he
  have hmissing : ∀ x, f.message.Mentions x → Table.find? ([] : Arguments) x = none :=
    fun _ _ => rfl
  obtain ⟨p, hp, hall, -⟩ := format_missing hf hvariable hmissing
  cases hp
  refine ⟨hf, hvariable, (hall []).1.trans ?_, (hall []).2.trans rfl⟩
  exact congrArg Except.ok (by decide +kernel)

end Formatter

end Phrasebook
