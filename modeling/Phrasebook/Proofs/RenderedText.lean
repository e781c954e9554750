import Phrasebook.View.Message
import Phrasebook.Proofs.Requests
import Phrasebook.Proofs.Spelling

/-!
A rendered message says what its plain text says.

With the builtin renderers a tree renders without fail to views that say what the tree says.
What a tree leaves out of a message's text are the marks of direction, so the views are compared
with the text of a composer that sets no marks; `Composer.unmarked` is that composer, and it
serves every request as the marked one does (`serveAll_unmarked`). Main statement:
`textContent_render_eq_translate_unmarked`.
-/

namespace Phrasebook

/-! ## Trees -/

/-- The renderer does not fail and keeps the text of the children. -/
def MarkupRenderer.Keeps (renderer : MarkupRenderer) : Prop :=
  ∀ input, ∃ v, renderer input = .ok v ∧ v.textContent = View.textContents input.children

theorem MarkupTable.keeps_builtins : Table.Every MarkupRenderer.Keeps builtins := by
  have hwrap : ∀ tag, (wrapIn tag).Keeps := fun tag input => ⟨_, rfl, rfl⟩
  have hlink : MarkupRenderer.Keeps link := fun input => ⟨_, rfl, rfl⟩
  refine Table.every_nil.insertAll ?_
  intro p hp
  simp only [List.mem_cons, List.not_mem_nil, or_false] at hp
  rcases hp with rfl | rfl | rfl | rfl | rfl | rfl | rfl
  all_goals first | exact hwrap _ | exact hlink

theorem View.textContents_append (a b : List View) :
    textContents (a ++ b) = textContents a ++ textContents b := by
  induction a with
  | nil => simp [textContents]
  | cons v rest ih => simp [textContents, ih, String.append_assoc]

namespace Node

variable {markups : MarkupTable}

mutual

/-- A node renders to views that say what it says; there is at least one. -/
theorem textContents_render (hm : markups.Every MarkupRenderer.Keeps) : ∀ node : Node, ∃ views,
    node.render [] markups = .ok views ∧ View.textContents views = node.textOf ∧ views ≠ []
  | .text s => ⟨_, rfl, by simp [View.textContents, View.textContent, textOf], List.cons_ne_nil _ _⟩
  | .variable name value shown => by
    refine ⟨[.text shown], ?_, by simp [View.textContents, View.textContent, textOf], by simp⟩
    cases name <;> simp [render]
  | .markup name options children => by
    obtain ⟨inside, hinside, htext, -⟩ := textContents_renderAll hm children
    cases hfind : Table.find? markups name with
    | none =>
      refine ⟨[.element defaultTag [] inside], ?_, ?_, List.cons_ne_nil _ _⟩
      · simp [render, hinside, hfind, bind, Except.bind, pure, Except.pure]
      · simp [View.textContents, View.textContent, textOf, htext]
    | some renderer =>
      obtain ⟨v, hv, hkept⟩ := hm name renderer hfind ⟨inside, options⟩
      refine ⟨[v], ?_, ?_, List.cons_ne_nil _ _⟩
      · simp [render, hinside, hfind, hv, bind, Except.bind, pure, Except.pure]
      · simp [View.textContents, textOf, hkept, htext]

/-- Nodes in a row render to views that say what they say, and to none only if there is none. -/
theorem textContents_renderAll (hm : markups.Every MarkupRenderer.Keeps) :
    ∀ nodes : List Node, ∃ views, renderAll [] markups nodes = .ok views ∧
      View.textContents views = flatten nodes ∧ (views = [] → nodes = [])
  | [] => ⟨[], rfl, rfl, fun _ => rfl⟩
  | node :: rest => by
    obtain ⟨first, hfirst, htext, hne⟩ := textContents_render hm node
    obtain ⟨others, hothers, htexts, -⟩ := textContents_renderAll hm rest
    refine ⟨first ++ others, ?_, ?_, fun h => absurd (List.append_eq_nil_iff.mp h).1 hne⟩
    · simp [renderAll, hfirst, hothers, bind, Except.bind, pure, Except.pure]
    · simp [View.textContents_append, flatten, htext, htexts]

end

end Node

/-! ## Parts of a message -/

namespace Formatter

theorem itemText_of_silent (f : Formatter) {item : ResolvedItem}
    (h : ∀ p ∈ f.itemParts item, p.Silent) : f.itemText item = "" := by
  cases item with
  | text s => exact absurd (h (.text s) (by simp [itemParts])) id
  | markup m options => rfl
  | expression source value =>
    refine absurd (h (.expression (f.expressionPart source value)) ?_) id
    cases hi : f.isolates <;> simp [itemParts, hi]

theorem join_itemText_of_silent (f : Formatter) {items : List ResolvedItem}
    (h : ∀ p ∈ items.flatMap f.itemParts, p.Silent) : String.join (items.map f.itemText) = "" := by
  induction items with
  | nil => rfl
  | cons item rest ih =>
    rw [List.flatMap_cons, List.forall_mem_append] at h
    rw [List.map_cons, String.join_cons, itemText_of_silent f h.1, ih h.2, String.empty_append]

/-- Where the parts of a message leave nothing in the tree, the message has no text, marks of
direction included: these come only around a placeholder. -/
theorem format_of_ofParts_eq_nil {f : Formatter} {arguments : Arguments} {parts : List Part}
    (h : f.formatToParts arguments = .ok parts) (hnil : Node.ofParts parts = []) :
    f.format arguments = .ok "" := by
  obtain ⟨items, hitems, h⟩ := Outcome.bind_eq_ok h
  cases h
  have hjoin := join_itemText_of_silent f (Node.silent_of_ofParts_eq_nil hnil)
  simp [format, hitems, bind, Except.bind, pure, Except.pure, hjoin]

end Formatter

/-! ## Composers -/

namespace Composer

/-- Every function that the composer or one of its formatters may call spells its text. -/
structure Spells (c : Composer) : Prop where
  functions : c.functions.Every MessageFunction.Spells
  cache : ∀ entry ∈ c.cache, entry.2.functions.Every MessageFunction.Spells

theorem spells_of_compiled? {c : Composer} (h : c.Spells) {locale pattern : String}
    {f : Formatter} (hf : c.compiled? locale pattern = some f) :
    f.functions.Every MessageFunction.Spells := by
  unfold compiled? Formatter.compile at hf
  cases hparse : Message.parse pattern with
  | error e => simp [hparse, bind, Except.bind, Except.toOption] at hf
  | ok message =>
    simp only [hparse, bind, Except.bind, pure, Except.pure, Except.toOption,
      Option.some.injEq] at hf
    exact hf ▸ h.functions

theorem spells_formatter? {c : Composer} (h : c.Spells) (locale key pattern : String) :
    (c.formatter? locale key pattern).2.Spells ∧
      ∀ f, (c.formatter? locale key pattern).1 = some f →
        f.functions.Every MessageFunction.Spells := by
  obtain ⟨f, hcached, hf⟩ | ⟨f, -, hmade, hf⟩ | ⟨-, -, hf⟩ := formatter?_cases c locale key pattern
  · rw [hf]
    refine ⟨h, fun g hg => ?_⟩
    cases hg
    obtain ⟨before, after, hcache, -⟩ := List.lookup_eq_some_iff.mp hcached
    exact h.cache ((locale, key), f) (by simp [hcache])
  · have hspells := spells_of_compiled? h hmade
    rw [hf]
    refine ⟨⟨h.functions, List.forall_mem_cons.mpr ⟨hspells, h.cache⟩⟩, fun g hg => ?_⟩
    cases hg
    exact hspells
  · rw [hf]
    exact ⟨h, fun g hg => by cases hg⟩

theorem spells_translate {c : Composer} (h : c.Spells) (key : String) (arguments : Arguments) :
    (c.translate key arguments).2.Spells := by
  rw [translate_snd]
  split
  · exact h
  · exact (spells_formatter? h ..).1

theorem spells_serve {c : Composer} (h : c.Spells) (request : Request) :
    (c.serve request).Spells := by
  cases request with
  | setLocale locale => exact ⟨h.functions, h.cache⟩
  | resolve key => exact h
  | has key => exact h
  | translate key arguments => exact spells_translate h key arguments
  | translateToParts key arguments =>
    rw [serve, translateToParts_snd]
    exact spells_translate h key arguments
  | formatter locale key pattern => exact (spells_formatter? h ..).1

theorem spells_serveAll {c : Composer} (h : c.Spells) (requests : List Request) :
    (c.serveAll requests).Spells := by
  induction requests generalizing c with
  | nil => exact h
  | cons request rest ih => exact ih (spells_serve h request)

theorem spells_formatterFor? {c : Composer} (h : c.Spells) {key : String} {f : Formatter}
    (hf : c.formatterFor? key = some f) : f.functions.Every MessageFunction.Spells := by
  obtain ⟨pattern, -, hf⟩ := Option.bind_eq_some_iff.mp hf
  exact (spells_formatter? h ..).2 f hf

/-! ## Composers without marks of direction -/

/-- The same composer, had it been made to set no marks of direction. -/
def unmarked (c : Composer) : Composer :=
  { c with
    isolates := false
    cache := c.cache.map fun entry => (entry.1, entry.2.unmarked) }

theorem ofSettings_unmarked {settings : ComposerSettings} {c : Composer}
    (h : ofSettings settings = .ok c) :
    ofSettings { settings with isolates := false } = .ok c.unmarked := by
  obtain ⟨bundles, hshelve, h⟩ := Outcome.bind_eq_ok h
  cases h
  simp [ofSettings, hshelve, unmarked, bind, Except.bind, pure, Except.pure]

theorem cached?_unmarked (c : Composer) (locale key : String) :
    c.unmarked.cached? locale key = (c.cached? locale key).map Formatter.unmarked := by
  unfold cached? unmarked
  induction c.cache with
  | nil => rfl
  | cons entry rest ih =>
    rw [List.map_cons, List.lookup_cons, List.lookup_cons, ih]
    split <;> rfl

theorem compiled?_unmarked (c : Composer) (locale pattern : String) :
    c.unmarked.compiled? locale pattern = (c.compiled? locale pattern).map Formatter.unmarked := by
  unfold compiled? Formatter.compile
  cases Message.parse pattern <;> rfl

theorem formatter?_unmarked (c : Composer) (locale key pattern : String) :
    c.unmarked.formatter? locale key pattern =
      ((c.formatter? locale key pattern).1.map Formatter.unmarked,
        (c.formatter? locale key pattern).2.unmarked) := by
  have hcached := cached?_unmarked c locale key
  have hcompiled := compiled?_unmarked c locale pattern
  obtain ⟨f, hc, hf⟩ | ⟨f, hc, hm, hf⟩ | ⟨hc, hm, hf⟩ := formatter?_cases c locale key pattern <;>
    obtain ⟨g, hc', hg⟩ | ⟨g, hc', hm', hg⟩ | ⟨hc', hm', hg⟩ :=
      formatter?_cases c.unmarked locale key pattern <;>
    simp_all [unmarked]

theorem translate_unmarked (c : Composer) (key : String) (arguments : Arguments) :
    (c.unmarked.translate key arguments).2 = (c.translate key arguments).2.unmarked := by
  have hbundles : c.unmarked.bundles = c.bundles := rfl
  have hlocale : c.unmarked.locale = c.locale := rfl
  rw [translate_snd, translate_snd, hbundles, hlocale]
  cases patternIn c.bundles c.locale key with
  | none => rfl
  | some pattern => exact congrArg Prod.snd (formatter?_unmarked ..)

theorem serve_unmarked (c : Composer) (request : Request) :
    c.unmarked.serve request = (c.serve request).unmarked := by
  cases request with
  | setLocale locale => rfl
  | resolve key => rfl
  | has key => rfl
  | translate key arguments => exact translate_unmarked c key arguments
  | translateToParts key arguments =>
    rw [serve, serve, translateToParts_snd, translateToParts_snd, translate_unmarked]
  | formatter locale key pattern => exact congrArg Prod.snd (formatter?_unmarked ..)

/-- Without marks of direction a run goes as it does with them. -/
theorem serveAll_unmarked (c : Composer) (requests : List Request) :
    c.unmarked.serveAll requests = (c.serveAll requests).unmarked := by
  induction requests generalizing c with
  | nil => rfl
  | cons request rest ih =>
    rw [serveAll, List.foldl_cons, serve_unmarked]
    exact ih (c.serve request)

theorem formatterFor?_unmarked (c : Composer) (key : String) :
    c.unmarked.formatterFor? key = (c.formatterFor? key).map Formatter.unmarked := by
  unfold formatterFor?
  change (patternIn c.bundles c.locale key).bind _ = _
  cases patternIn c.bundles c.locale key with
  | none => rfl
  | some pattern => exact congrArg Prod.fst (formatter?_unmarked ..)

/-- After its parts were asked for, a key is served as before. -/
theorem translate_translateToParts (c : Composer) (key : String) (arguments : Arguments) :
    ((c.translateToParts key arguments).2.translate key arguments).1 =
      (c.translate key arguments).1 := by
  rw [translate_fst, translate_fst]
  obtain ⟨cache, hstate⟩ := translate_snd_eq c key arguments
  have hsame : (c.translateToParts key arguments).2.formatterFor? key = c.formatterFor? key := by
    rw [translateToParts_snd, hstate]
    unfold formatterFor? withState
    cases hp : patternIn c.bundles c.locale key with
    | none => rfl
    | some pattern =>
      have hagain := formatter?_again c c.locale key pattern
      rw [translate_snd, hp] at hstate
      dsimp only at hstate
      rw [hstate] at hagain
      exact congrArg Prod.fst hagain
  rw [hsame, translateToParts_snd, hstate]
  rfl

end Composer

/-! ## Messages -/

namespace Composer

variable {c : Composer} {key : String} {arguments : Arguments}

/-- What a key shows, with and without marks of direction, when its message has parts. -/
theorem translate_of_parts (hc : c.Spells) {f : Formatter} (hf : c.formatterFor? key = some f)
    {parts : List Part} (hparts : f.formatToParts arguments = .ok parts) :
    (c.translateToParts key arguments).1 = parts ∧
      (c.unmarked.translate key arguments).1 = Node.flatten (Node.ofParts parts) ∧
      (Node.ofParts parts = [] → (c.translate key arguments).1 = "") := by
  have htree := Formatter.format_unmarked_eq_flatten (spells_formatterFor? hc hf) arguments
  rw [hparts] at htree
  refine ⟨?_, ?_, fun hnil => ?_⟩
  · simp [translateToParts_fst, hf, hparts, Except.toOption]
  · simp [translate_fst, formatterFor?_unmarked, hf, htree, Except.map, Except.toOption]
  · have hempty := Formatter.format_of_ofParts_eq_nil hparts hnil
    simp [translate_fst, hf, hempty, Except.toOption]

/-- What a key shows when its message has no parts to show. -/
theorem translate_of_no_parts (hc : c.Spells)
    (h : ∀ f parts, c.formatterFor? key = some f → f.formatToParts arguments ≠ .ok parts) :
    (c.translateToParts key arguments).1 = [] ∧
      (c.translate key arguments).1 = c.substitute key ∧
      (c.unmarked.translate key arguments).1 = c.substitute key := by
  have hsubstitute : c.unmarked.substitute key = c.substitute key := rfl
  cases hf : c.formatterFor? key with
  | none => simp [translateToParts_fst, translate_fst, formatterFor?_unmarked, hf, hsubstitute]
  | some f =>
    have hspells := spells_formatterFor? hc hf
    have htext := Formatter.format_eq_shownAll hspells arguments
    have htree := Formatter.format_unmarked_eq_flatten hspells arguments
    cases hparts : f.formatToParts arguments with
    | ok parts => exact absurd hparts (h f parts hf)
    | error e =>
      rw [hparts] at htext htree
      simp [translateToParts_fst, translate_fst, formatterFor?_unmarked, hf, hparts, htext, htree,
        hsubstitute, Except.map, Except.toOption]

end Composer

namespace MessageView

theorem textContent_plain (m : MessageView) (key : String) (i : Instance) :
    (m.plain key i).1.textContent = (i.composer.translate key m.arguments).1 := by
  simp [plain, wrap, Instance.withComposer, View.textContent, View.textContents]

/-- Rendering shows the views of the tree where it has nodes, and plain text where not. -/
theorem render_cases {m : MessageView} (i : Instance) {key : String} (hslots : m.slots = [])
    (hkey : m.key? = some key) (hm : i.markups.Every MarkupRenderer.Keeps) {tree : List Node}
    (htree : Node.ofParts (i.composer.translateToParts key m.arguments).1 = tree) :
    (tree = [] ∧ (m.render i).1.textContent = (i.composer.translate key m.arguments).1) ∨
      (tree ≠ [] ∧ (m.render i).1.textContent = Node.flatten tree) := by
  obtain ⟨views, hviews, htext, hnone⟩ := Node.textContents_renderAll hm tree
  have hplain : ∀ d, d = (i.composer.translateToParts key m.arguments).2 →
      (m.plain key { i with composer := d }).1.textContent =
        (i.composer.translate key m.arguments).1 := by
    rintro d rfl
    rw [textContent_plain, Composer.translate_translateToParts]
  cases hparts : i.composer.translateToParts key m.arguments with
  | mk parts d =>
    rw [hparts] at htree hplain
    cases parts with
    | nil =>
      refine .inl ⟨by rw [← htree, Node.ofParts_nil], ?_⟩
      simp [render, hkey, Instance.withComposer, hparts, hplain]
    | cons p rest =>
      cases views with
      | nil =>
        refine .inl ⟨hnone rfl, ?_⟩
        simp [render, hkey, Instance.withComposer, hparts, hslots, htree, hviews, hplain]
      | cons v others =>
        refine .inr ⟨fun hnil => ?_, ?_⟩
        · rw [hnil] at hviews
          cases hviews
        · simpa [render, hkey, Instance.withComposer, hparts, hslots, htree, hviews, wrap,
            View.textContent] using htext

theorem textContent_render {m : MessageView} {i : Instance} {key : String}
    (hslots : m.slots = []) (hkey : m.key? = some key)
    (hm : i.markups.Every MarkupRenderer.Keeps) (hc : i.composer.Spells) :
    (m.render i).1.textContent = (i.composer.unmarked.translate key m.arguments).1 := by
  by_cases h : ∃ f parts, i.composer.formatterFor? key = some f ∧
      f.formatToParts m.arguments = .ok parts
  · obtain ⟨f, parts, hf, hformat⟩ := h
    obtain ⟨hparts, hunmarked, hempty⟩ := Composer.translate_of_parts hc hf hformat
    rcases render_cases i hslots hkey hm (congrArg Node.ofParts hparts) with ⟨hnil, h⟩ | ⟨-, h⟩
    · rw [h, hempty hnil, hunmarked, hnil]
      rfl
    · rw [h, hunmarked]
  · have hno : ∀ f parts, i.composer.formatterFor? key = some f →
        f.formatToParts m.arguments ≠ .ok parts :=
      fun f parts hf hformat => h ⟨f, parts, hf, hformat⟩
    obtain ⟨hparts, hplain, hunmarked⟩ := Composer.translate_of_no_parts hc hno
    have htree := (congrArg Node.ofParts hparts).trans Node.ofParts_nil
    rcases render_cases i hslots hkey hm htree with ⟨-, h⟩ | ⟨hne, -⟩
    · rw [h, hplain, hunmarked]
    · exact absurd rfl hne

end MessageView

/-- With the builtin functions and renderers, a message without slots renders to a view that
says what the composer, had it been made to set no marks of direction and served the same
requests, says for the key. -/
theorem textContent_render_eq_translate_unmarked {locale : String} {bundles : List Bundle}
    {localizer : Localizer} {isolates : Bool} {i : Instance}
    (h : Instance.ofSettings { locale, bundles, localizer, isolates } [] = .ok i) :
    ∃ plain, Composer.ofSettings { locale, bundles, localizer, isolates := false } = .ok plain ∧
      ∀ (history : List Request) (m : MessageView) (key : String),
        m.slots = [] → m.key? = some key →
          (m.render { i with composer := i.composer.serveAll history }).1.textContent =
            ((plain.serveAll history).translate key m.arguments).1 := by
  obtain ⟨c, hc, h⟩ := Outcome.bind_eq_ok h
  cases h
  refine ⟨c.unmarked, Composer.ofSettings_unmarked hc, ?_⟩
  intro history m key hslots hkey
  have hspells : c.Spells := by
    obtain ⟨shelved, -, hc⟩ := Outcome.bind_eq_ok hc
    cases hc
    exact ⟨FunctionTable.spells_builtins, fun entry hmem => by cases hmem⟩
  rw [Composer.serveAll_unmarked]
  exact MessageView.textContent_render hslots hkey MarkupTable.keeps_builtins
    (Composer.spells_serveAll hspells history)

/-- A message that is one stray closing marker, and a pattern that cannot be read. -/
def strayPatterns : ComposerSettings where
  locale := "fr"
  bundles := [⟨"en", [("stray", "{/b}"), ("unread", "{#b}{$x:n}")]⟩]

/-- Stray closing markup leaves no node, and the message shows as plain text. -/
theorem textContent_render_eq_translate_unmarked_stray :
    ∃ i plain, Instance.ofSettings strayPatterns [] = .ok i ∧
      Composer.ofSettings { strayPatterns with isolates := false } = .ok plain ∧
      MessageView.slots { path := some "stray" } = [] ∧
      MessageView.key? { path := some "stray" } = some "stray" ∧
      (MessageView.render { path := some "stray" }
        { i with
          composer :=
            i.composer.serveAll [.setLocale "en", .translate "unread" []] }).1.textContent =
        ((plain.serveAll [.setLocale "en", .translate "unread" []]).translate "stray" []).1 := by
  obtain ⟨i, hi⟩ : ∃ i, Instance.ofSettings strayPatterns [] = .ok i := ⟨_, rfl⟩
  obtain ⟨plain, hplain, hsame⟩ := textContent_render_eq_translate_unmarked hi
  exact ⟨i, plain, hi, hplain, rfl, rfl,
    hsame [.setLocale "en", .translate "unread" []] { path := some "stray" } "stray" rfl rfl⟩

end Phrasebook
