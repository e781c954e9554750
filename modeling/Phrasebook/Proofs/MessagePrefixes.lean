import Mathlib.Data.List.Infix
import Phrasebook.Proofs.PlaceholderPrefixes
import Phrasebook.Proofs.Tiling

/-!
Syntax errors are reported no later than where the source goes wrong.

What stands before an error begins a message that the scanner accepts. `Scanner.Breaks` is carried
from what stands in braces to patterns, declarations, selectors, keys, variants and whole messages,
with a completion for each place at which one of them can fail. Left out are errors over escapes,
and sources with `.input` in them: no expression whose operand is a literal ends such a
declaration, yet an error may come later in it. Main statement:
`Message.exists_completion_of_scan_error`.
-/

namespace Phrasebook

/-! ## Kinds of texts -/

/-- Items that go on a pattern. -/
def ItemsText (found : Pattern) (ws : List Char) : Prop :=
  ∃ more, WrittenAll ItemWritten more ws ∧ PatternWellFormed (found ++ more)

/-- A pattern between double braces. -/
def QuotedText : List Char → Prop := Formed QuotedWritten PatternWellFormed

def DeclarationText : List Char → Prop := Formed DeclarationWritten Declaration.WellFormed

def SelectorText : List Char → Prop := Formed SelectorWritten IsName

def SelectorsText : List Char → Prop := FormedAll SelectorWritten IsName

def KeysText : List Char → Prop := Formed KeysScanned (· ≠ [])

def VariantText : List Char → Prop := Formed VariantScanned (PatternWellFormed ·.pattern)

def VariantsText : List Char → Prop := FormedAll VariantScanned (PatternWellFormed ·.pattern)

def MatcherText : List Char → Prop := Formed MatcherScanned Matcher.PiecesWellFormed

def BodyText : List Char → Prop := Formed BodyScanned Body.PiecesWellFormed

/-- A source that is read. -/
def MessageText (ws : List Char) : Prop := ∃ m, Message.scan (String.ofList ws) = .ok m

/-- An empty pattern between double braces. -/
def emptyQuoted : List Char := ['\x7b', '\x7b', '\x7d', '\x7d']

/-- An expression that is a variable. -/
def shortExpression : List Char := ['\x7b', '$', 'x', '\x7d']

theorem itemsText_nil {found : Pattern} (h : PatternWellFormed found) : ItemsText found [] :=
  ⟨[], .nil, by rwa [List.append_nil]⟩

theorem ItemsText.of_item {found : Pattern} {item : PatternItem} {ws : List Char}
    (h : PatternWellFormed found) (hws : ItemWritten item ws) (hitem : item.WellFormed)
    (hlast : ∀ last ∈ found.getLast?, ¬ (last.IsText ∧ item.IsText)) : ItemsText found ws :=
  ⟨[item], .single hws, h.concat hitem hlast⟩

theorem ItemsText.quoted {ws : List Char} (h : ItemsText [] ws) :
    QuotedText ('\x7b' :: '\x7b' :: (ws ++ ['\x7d', '\x7d'])) := by
  obtain ⟨p, hws, hp⟩ := h
  exact ⟨p, .mk hws, hp⟩

theorem quotedText_nil : QuotedText emptyQuoted := (itemsText_nil patternWellFormed_nil).quoted

theorem DeclarationText.binding {name : String} {b b₁ b₂ b₃ ws : List Char} (hb : Blanks b)
    (hb₁ : Blanks b₁) (hne : b₁ ≠ []) (hname : IsName name) (hb₂ : Blanks b₂) (hb₃ : Blanks b₃)
    (h : ExpressionText ws) :
    DeclarationText
      (b ++ (".local".toList ++ (b₁ ++ '$' :: (name.toList ++ (b₂ ++ '=' :: (b₃ ++ ws)))))) := by
  obtain ⟨e, hws, he⟩ := h
  exact ⟨⟨.binding, name, e⟩, .binding hb hb₁ hne hb₂ hb₃ hws, hname, he, fun h => by cases h⟩

theorem SelectorText.mk {name : String} {b : List Char} (hb : Blanks b) (hne : b ≠ [])
    (hname : IsName name) : SelectorText (b ++ '$' :: name.toList) := ⟨name, .mk hb hne, hname⟩

/-- Nothing goes on with a literal between bars. -/
theorem BarredText.stops {ws : List Char} (h : BarredText ws) : Stops isLiteralChar ws := by
  obtain ⟨run, us, rfl, -⟩ := h
  exact stops_cons (by decide)

theorem BarredText.keys {ks : List VariantKey} {ws vs : List Char} (hws : KeysScanned ks ws)
    (h : BarredText vs) : KeysText (ws ++ vs) := by
  obtain ⟨s, hs⟩ := h.literal isLiteralStart
  have hkeys := hws.concat (.of_stops h.stops) (.literal hs) blanks_nil
  rw [List.append_nil] at hkeys
  exact ⟨ks ++ [.literal s], hkeys, by simp⟩

theorem keysText_catchAll : KeysText ['*'] :=
  ⟨[.catchAll], KeysScanned.nil.concat (.of_stops (stops_cons (by decide))) .catchAll blanks_nil,
    by simp⟩

theorem KeysText.variant {b ws vs : List Char} (hb : Blanks b) (h : KeysText ws)
    (hvs : QuotedText vs) : VariantText (b ++ (ws ++ vs)) := by
  obtain ⟨ks, hws, hne⟩ := h
  obtain ⟨p, hvs, hp⟩ := hvs
  exact ⟨⟨ks, p, .nowhere⟩, .mk hb hne hws hvs, hp⟩

/-- The shortest variant. -/
theorem variantText_catchAll {b : List Char} (hb : Blanks b) :
    VariantText (b ++ '*' :: emptyQuoted) := keysText_catchAll.variant hb quotedText_nil

/-- Blanks before the first variant belong to it. -/
theorem WrittenAll.blanks {vs : List Variant} {b ws : List Char}
    (h : WrittenAll VariantScanned vs ws) (hne : vs ≠ []) (hb : Blanks b) :
    WrittenAll VariantScanned vs (b ++ ws) := by
  cases h with
  | nil => exact absurd rfl hne
  | cons hv hrest =>
    obtain ⟨hb₀, hkeys, hks, hq⟩ := hv
    have hfirst := VariantScanned.mk (hb.append hb₀) hkeys hks hq
    have hall := WrittenAll.cons hfirst hrest
    simpa using hall

theorem SelectorsText.matcher {ws vs : List Char} (h : SelectorsText ws) (hvs : VariantsText vs)
    (hstops : Stops isNameChar vs) : MatcherText (ws ++ vs) := by
  obtain ⟨ss, hss, hws, hnames⟩ := h
  obtain ⟨variants, hne, hvs, hpatterns⟩ := hvs
  exact ⟨⟨ss, variants, .nowhere⟩, .mk hws hvs hne hstops, hss, hnames, hpatterns⟩

/-- Selectors, and the shortest variant after blanks. -/
theorem SelectorsText.matcher_catchAll {ws b : List Char} (h : SelectorsText ws) (hb : Blanks b)
    (hne : b ≠ []) : MatcherText (ws ++ (b ++ '*' :: emptyQuoted)) := by
  have hvariants : VariantsText _ := .concat .nil (by simp) (variantText_catchAll hb)
  exact h.matcher hvariants (Delimited.of_blanks hb hne).stops_name

/-- Variants may go on where they began, if what they begin with cannot carry on the name of the
last selector; where nothing has begun yet, a blank does not. -/
theorem SelectorsText.begins_matcher {ws b vs rest : List Char} (h : SelectorsText ws)
    (hb : Blanks b) (hvs : Begins VariantsText vs) (hrest : vs <+: rest)
    (hstops : Stops isNameChar (b ++ rest)) : Begins MatcherText (ws ++ (b ++ vs)) := by
  obtain ⟨rest, rfl⟩ := hrest
  cases hbegun : b ++ vs with
  | nil =>
    refine .of (t := ' ' :: '*' :: emptyQuoted) ?_
    have hdone := h.matcher_catchAll blanks_space (List.cons_ne_nil _ _)
    simpa using hdone
  | cons x xs =>
    obtain ⟨t, ht⟩ := hvs
    obtain ⟨variants, hne, hvariants, hpatterns⟩ := ht
    have hfirst := hvariants.blanks hne hb
    rw [← List.append_assoc, hbegun] at hfirst hstops
    refine .of (t := t) ?_
    have hdone := h.matcher ⟨variants, hne, hfirst, hpatterns⟩ (stops_cons (hstops x _ rfl))
    simpa using hdone

theorem QuotedText.body {ws : List Char} (h : QuotedText ws) : BodyText ws := by
  obtain ⟨p, hws, hp⟩ := h
  exact ⟨.pattern p, .pattern hws, hp⟩

theorem MatcherText.body {ws : List Char} (h : MatcherText ws) :
    BodyText (".match".toList ++ ws) := by
  obtain ⟨m, hws, hm⟩ := h
  exact ⟨.choice m, .choice hws, hm⟩

theorem BodyText.message {ds : List Declaration} {ws b vs b₁ : List Char} (h : BodyText vs)
    (hws : WrittenAll DeclarationWritten ds ws) (hds : ∀ d ∈ ds, d.WellFormed) (hb : Blanks b)
    (hb₁ : Blanks b₁) : MessageText (ws ++ (b ++ (vs ++ b₁))) := by
  obtain ⟨body, hvs, hbody⟩ := h
  obtain ⟨m, hm, -⟩ := Message.scan_of_complex (m := ⟨ds, body⟩) hws hb hvs hb₁ ⟨hds, hbody⟩
  exact ⟨m, hm⟩

namespace Scanner

variable {c : Cursor}

/-! ## Patterns -/

theorem breaks_of_textRun {quotedPattern : Bool} {cs : List Char} {p : Position} {e : SyntaxError}
    (h : textRun quotedPattern cs p = .error e) :
    ∃ ws d, Cursor.Passes ⟨cs, p⟩ ws d ∧
      BreaksAfter (fun vs => ∃ run, Escaped PlainInText run vs) e ws d := by
  fun_induction textRun quotedPattern cs p with
  | case1 p => cases h
  | case2 p =>
    cases h
    exact ⟨[], _, .refl _, fun hfault => absurd rfl hfault⟩
  | case3 x rest p q hx =>
    rename_i ih
    rcases Outcome.bind_eq_error h with hrest | ⟨_, -, h⟩
    · obtain ⟨ws, d, hws, hbreak⟩ := ih hrest
      refine ⟨'\\' :: x :: ws, d, hws.cons.cons, fun hfault => ?_⟩
      obtain ⟨hstart, run, hrun⟩ := hbreak hfault
      exact ⟨hstart, x :: run, .escaped hx hrun⟩
    · cases h
  | case4 x rest p hx =>
    cases h
    exact ⟨[], _, .refl _, fun hfault => absurd rfl hfault⟩
  | case5 rest p => cases h
  | case6 rest p hend => cases h
  | case7 rest p hend =>
    cases h
    exact ⟨[], _, .refl _, fun _ => ⟨rfl, [], .nil⟩⟩
  | case8 x rest p hlone hpair hopen hclose ih =>
    rcases Outcome.bind_eq_error h with hrest | ⟨_, -, h⟩
    · obtain ⟨ws, d, hws, hbreak⟩ := ih hrest
      refine ⟨x :: ws, d, hws.cons, fun hfault => ?_⟩
      obtain ⟨hstart, run, hrun⟩ := hbreak hfault
      exact ⟨hstart, x :: run, .plain ⟨hopen, hclose, ne_of_unmatched hlone hpair⟩ hrun⟩
    · cases h

/-- What stands before an error in a text is a text, or nothing. -/
theorem itemsText_of_escaped {found : Pattern} {run ws : List Char}
    (h : Escaped PlainInText run ws) (hfound : PatternWellFormed found)
    (hlast : ∀ last ∈ found.getLast?, ¬ last.IsText) : ItemsText found ws := by
  by_cases hnil : run = []
  · subst hnil
    cases h
    exact itemsText_nil hfound
  · have htext : ItemWritten (.text (String.ofList run)) ws :=
      .text (by rwa [String.toList_ofList])
    have hitem : PatternItem.WellFormed (.text (String.ofList run)) := fun hempty =>
      hnil (String.ofList_eq_empty_iff.mp hempty)
    exact .of_item hfound htext hitem fun last hmem hboth => hlast last hmem hboth.1

theorem breaks_item? {quotedPattern : Bool} {found : Pattern}
    (h : PatternRead quotedPattern found c) :
    Breaks (item? quotedPattern) c (fun item? ws d => Took ItemWritten item? ws ∧
      ∀ item ∈ item?, PatternRead quotedPattern (found ++ [item]) d)
      (Begins (ItemsText found)) := by
  have hitem : Breaks (item? quotedPattern) c (fun _ _ _ => True) (Begins (ItemsText found)) := by
    unfold item?
    refine Runs.get (Runs.lift (fun e hrun => ?_) ?_)
    · obtain ⟨ws, d, hws, hbreak⟩ := breaks_of_textRun hrun
      refine ⟨ws, d, hws, fun hfault => ?_⟩
      obtain ⟨hstart, run, hescaped⟩ := hbreak hfault
      -- a cursor before an error is at no mark, so no text was read last
      have hmark : ¬ AtMark quotedPattern c := by
        intro hmark
        rw [AtMark, hrun] at hmark
        cases hmark
      refine ⟨hstart, .of (t := []) ?_⟩
      rw [List.append_nil]
      exact itemsText_of_escaped hescaped h.1 fun last hlast htext => hmark (h.2 last hlast htext)
    · rintro ⟨run, d⟩ hrun
      obtain ⟨ws, -, hpasses⟩ := passes_of_textRun hrun
      dsimp only
      split
      · exact Breaks.after (runs_set (R := fun _ _ _ => True) hpasses trivial)
          fun _ _ _ _ _ => .pure trivial
      · split
        · refine breaks_placeholder.bind ?_ fun _ _ _ _ _ => .pure trivial
          rintro ws ⟨t, item, hwritten, hwf, hbraces⟩
          exact .of (t := t) (.of_item h.1 hwritten hwf fun _ _ hboth => hbraces hboth.2)
        · exact .pure trivial
  have hall := (hitem.traces (traces_item? quotedPattern)).ensures (ensures_item? quotedPattern c)
  refine hall.imp_passes ?_
  rintro (_ | item) ws d - ⟨⟨-, hws⟩, hread⟩
  · exact ⟨hws, fun item hitem => by cases hitem⟩
  · refine ⟨PatternItem.Placed.written hws, ?_⟩
    rintro item ⟨⟩
    obtain ⟨hwf, htext⟩ := hread item rfl
    exact h.concat hwf htext

theorem breaks_pattern (quotedPattern : Bool) :
    Breaks (pattern quotedPattern) c (fun p ws d => WrittenAll ItemWritten p ws ∧
      PatternWellFormed p ∧ PatternEnds quotedPattern d.rest) (Begins (ItemsText [])) := by
  have hitems : Breaks (collect fun _ => item? quotedPattern) c
      (fun p ws _ => WrittenAll ItemWritten p ws ∧ PatternWellFormed p)
      (Begins (ItemsText [])) := by
    refine runs_collect (I := fun p ws d => WrittenAll ItemWritten p ws ∧
      PatternRead quotedPattern p d) ?_ (fun _ _ _ h => ⟨h.1, h.2.1⟩)
      ⟨.nil, patternRead_nil quotedPattern c⟩
    rintro found us d - ⟨hfound, hread⟩
    refine (breaks_item? hread).imp ?_ ?_
    · rintro (_ | item) ws e - ⟨hws, hitem⟩
      · cases hws
        exact ⟨by rwa [List.append_nil], hread.1⟩
      · exact ⟨hfound.concat hws, hitem item rfl⟩
    · rintro ws ⟨t, more, hws, hwf⟩
      refine .of (t := t) ⟨found ++ more, ?_, by rwa [List.nil_append]⟩
      rw [List.append_assoc]
      exact hfound.append hws
  have hpattern : Breaks (pattern quotedPattern) c
      (fun p ws _ => WrittenAll ItemWritten p ws ∧ PatternWellFormed p)
      (Begins (ItemsText [])) := by
    unfold pattern
    refine hitems.bind (fun _ h => h) fun p ws d _ hp => Runs.peek ?_
    refine Breaks.guard (fun _ => .of (t := []) ?_) fun _ => .pure ?_
    · exact ⟨p, by simpa using hp.1, hp.2⟩
    · exact ⟨by simpa using hp.1, hp.2⟩
  refine (hpattern.ensures (ensures_pattern quotedPattern c)).imp_passes ?_
  exact fun _ _ _ _ h => ⟨h.1.1, h.1.2, h.2⟩

theorem breaks_quotedPattern :
    Breaks quotedPattern c (fun p ws _ => QuotedWritten p ws ∧ PatternWellFormed p)
      (Begins QuotedText) := by
  unfold quotedPattern
  refine Runs.startsWith (Breaks.guard (fun _ => ?_) fun hopen => ?_)
  · exact .of (t := emptyQuoted) quotedText_nil
  have hbraces : ['\x7b', '\x7b'] <+: c.rest := by simpa using hopen
  refine Breaks.after (runs_skip_leading hbraces) ?_
  rintro _ _ _ - rfl
  refine (breaks_pattern true).bind (fun ws hws => ?_) fun p ws d _ hp => ?_
  · obtain ⟨t, ht⟩ := hws
    refine .of (t := t ++ ['\x7d', '\x7d']) ?_
    have hdone := ht.quoted
    simpa using hdone
  refine Breaks.after (runs_skip_leading hp.2.2.braces) ?_
  rintro _ _ _ - rfl
  refine .pure ⟨?_, hp.2.1⟩
  have hquoted := QuotedWritten.mk hp.1
  simpa using hquoted

/-! ## Declarations -/

theorem breaks_bindingDeclaration :
    Breaks bindingDeclaration c (fun d ws _ => d.WellFormed ∧
      ∀ b, Blanks b → DeclarationWritten d (b ++ (".local".toList ++ ws)))
      fun ws => ∀ b, Blanks b → Begins DeclarationText (b ++ (".local".toList ++ ws)) := by
  have hshort : ExpressionText shortExpression := expressionText_variable blanks_nil
  unfold bindingDeclaration
  refine Breaks.after runs_skipBlanks fun parted b₁ _ _ hb₁ => ?_
  refine Breaks.guard (fun _ b hb => ?_) fun hparted => ?_
  · refine .of (t := ' ' :: '$' :: 'x' :: '=' :: shortExpression) ?_
    have hspace : Blanks (b₁ ++ [' ']) := hb₁.1.append blanks_space
    have hdone := DeclarationText.binding hb hspace (by simp) isName_x blanks_nil blanks_nil hshort
    simpa using hdone
  have hne : b₁ ≠ [] := hb₁.2.1 (by simpa using hparted)
  refine (breaks_expect '$').bind ?_ ?_
  · rintro _ rfl b hb
    refine .of (t := '$' :: 'x' :: '=' :: shortExpression) ?_
    have hdone := DeclarationText.binding hb hb₁.1 hne isName_x blanks_nil blanks_nil hshort
    simpa using hdone
  rintro _ _ _ - rfl
  refine breaks_name.bind ?_ ?_
  · rintro _ rfl b hb
    refine .of (t := 'x' :: '=' :: shortExpression) ?_
    have hdone := DeclarationText.binding hb hb₁.1 hne isName_x blanks_nil blanks_nil hshort
    simpa using hdone
  rintro name _ _ - ⟨rfl, hname, -⟩
  refine Breaks.after runs_skipBlanks fun _ b₂ _ _ hb₂ => ?_
  refine (breaks_expect '=').bind ?_ ?_
  · rintro _ rfl b hb
    refine .of (t := '=' :: shortExpression) ?_
    have hdone := DeclarationText.binding hb hb₁.1 hne hname hb₂.1 blanks_nil hshort
    simpa using hdone
  rintro _ _ _ - rfl
  refine Breaks.after runs_skipBlanks fun _ b₃ _ _ hb₃ => ?_
  refine breaks_expression.bind ?_ ?_
  · rintro ws ⟨t, hws⟩ b hb
    refine .of (t := t) ?_
    have hdone := DeclarationText.binding hb hb₁.1 hne hname hb₂.1 hb₃.1 hws
    simpa using hdone
  rintro e ws _ - ⟨hws, he⟩
  refine .pure ⟨⟨hname, he, fun h => by cases h⟩, fun b hb => ?_⟩
  have hwritten : DeclarationWritten ⟨.binding, name, e⟩ _ :=
    .binding hb hb₁.1 hne hb₂.1 hb₃.1 hws
  simpa using hwritten

theorem breaks_declaration? (hinput : ¬ ".input".toList <:+: c.rest) :
    Breaks declaration? c
      (fun d? ws _ => TookOrBlanks DeclarationWritten Declaration.WellFormed d? ws)
      (Begins DeclarationText) := by
  unfold declaration?
  refine Breaks.after runs_skipBlanks fun _ b d hd hb => ?_
  refine Breaks.after (runs_keyword? "input") ?_
  rintro (_ | _) ws e he ⟨hfound, hnone⟩
  · cases hnone rfl
    refine Breaks.after (runs_keyword? "local") ?_
    rintro (_ | _) ws f - ⟨hfound, hnone⟩
    · cases hnone rfl
      refine .pure ?_
      simpa [TookOrBlanks] using hb.1
    · obtain ⟨rfl, -⟩ := hfound rfl
      refine breaks_bindingDeclaration.bind (fun vs hvs => hvs b hb.1) ?_
      rintro d vs _ - ⟨hd, hvs⟩
      refine .pure ⟨?_, hd⟩
      have hwritten := hvs b hb.1
      simpa using hwritten
  · obtain ⟨rfl, -⟩ := hfound rfl
    refine absurd ⟨b, e.rest, ?_⟩ hinput
    rw [hd.1, he.1, List.append_assoc]
    rfl

theorem breaks_declarations (hinput : ¬ ".input".toList <:+: c.rest) :
    Breaks (collect fun _ => declaration?) c (fun ds us _ => ∃ ws b, us = ws ++ b ∧
      WrittenAll DeclarationWritten ds ws ∧ (∀ d ∈ ds, d.WellFormed) ∧ Blanks b)
      (Begins (FormedAll DeclarationWritten Declaration.WellFormed)) := by
  refine (breaks_collect (T := fun _ => True) fun d hd => ?_).imp_passes ?_
  · obtain ⟨ws, hrest, -⟩ := hd
    have hinput' : ¬ ".input".toList <:+: d.rest := fun hinfix =>
      hinput (hrest ▸ hinfix.trans (List.suffix_append _ _).isInfix)
    exact (breaks_declaration? hinput').imp_passes fun _ _ _ _ h => ⟨h, fun _ => trivial⟩
  · rintro ds _ _ - ⟨ws, b, hus, hws, hds, hb, -⟩
    exact ⟨ws, b, hus, hws, hds, hb⟩

/-! ## Selectors -/

theorem breaks_selector? :
    Breaks selector? c (fun s? ws d => TookOrBlanks SelectorWritten IsName s? ws ∧
      (s?.isSome → Stops isNameChar d.rest)) (Begins SelectorText) := by
  unfold selector?
  refine Breaks.after runs_skipBlanks fun parted b _ _ hb => Runs.peek ?_
  split
  · next hdollar =>
    refine Breaks.guard (fun _ => ?_) fun hparted => ?_
    · refine .of (t := [' ', '$', 'x']) ?_
      have hspace : Blanks (b ++ [' ']) := hb.1.append blanks_space
      have hdone := SelectorText.mk hspace (by simp) isName_x
      simpa using hdone
    have hne : b ≠ [] := hb.2.1 (by simpa using hparted)
    refine Breaks.after (runs_skip_of_head? hdollar) ?_
    rintro _ _ _ - rfl
    refine breaks_name.bind ?_ ?_
    · rintro _ rfl
      refine .of (t := ['x']) ?_
      have hdone := SelectorText.mk hb.1 hne isName_x
      simpa using hdone
    rintro name _ d - ⟨rfl, hname, hstops⟩
    refine .pure ⟨⟨?_, hname⟩, fun _ => hstops⟩
    have hwritten : SelectorWritten name _ := .mk hb.1 hne
    simpa using hwritten
  · refine .pure ⟨?_, by simp⟩
    simpa [TookOrBlanks] using hb.1

theorem breaks_selectors :
    Breaks (collect fun _ => selector?) c (fun ss us d => ∃ ws b, us = ws ++ b ∧
      WrittenAll SelectorWritten ss ws ∧ (∀ s ∈ ss, IsName s) ∧ Blanks b ∧
      (ss ≠ [] → Stops isNameChar (b ++ d.rest))) (Begins SelectorsText) :=
  breaks_collect fun _ _ => breaks_selector?

/-! ## Keys and variants -/

theorem breaks_key? :
    Breaks key? c (fun k? ws d => (∀ k ∈ k?, ∃ us b, ws = us ++ b ∧ KeyText k us ∧ Blanks b ∧
      Apart ws d.rest) ∧ (k? = none → ws = [])) (Begins BarredText) := by
  unfold key?
  refine Runs.peek ?_
  split
  · next hstar =>
    refine Breaks.after (runs_skip_of_head? hstar) ?_
    rintro _ _ _ - rfl
    refine Breaks.after runs_skipBlanks fun _ b d _ hb => .pure ⟨?_, by simp⟩
    rintro _ ⟨⟩
    have hapart : Apart ['*'] (b ++ d.rest) := by
      rintro x ⟨⟩ hliteral
      cases hliteral
    exact ⟨['*'], b, by simp, .catchAll, hb.1, by simpa using hapart.blanks hb.1⟩
  · next x _ hx =>
    split
    · next hstart =>
      refine breaks_literal.bind (fun _ h => h) ?_
      rintro s us d hd ⟨hus, hapart⟩
      obtain ⟨y, ys, rfl, -⟩ := hus.exists_cons
      have hhead : (y :: ys).head? = some x := by
        rw [hd.1] at hx
        exact hx
      have hkey := hus.of_start hhead (by simpa using hstart)
      refine Breaks.after runs_skipBlanks fun _ b e he hb => .pure ⟨?_, by simp⟩
      rintro _ ⟨⟩
      rw [he.1] at hapart
      exact ⟨y :: ys, b, by simp, .literal hkey, hb.1, by simpa using hapart.blanks hb.1⟩
    · exact .pure ⟨by simp, fun _ => rfl⟩
  · exact .pure ⟨by simp, fun _ => rfl⟩

theorem breaks_keys :
    Breaks (collect fun _ => key?) c (fun ks ws _ => KeysScanned ks ws) (Begins KeysText) := by
  refine runs_collect (I := fun ks ws d => KeysScanned ks ws ∧ Apart ws d.rest) ?_
    (fun _ _ _ h => h.1) ⟨.nil, fun x hx => by cases hx⟩
  rintro found us d - ⟨hfound, hapart⟩
  refine breaks_key?.imp ?_ ?_
  · rintro (_ | k) ws e he ⟨hsome, hnone⟩
    · cases hnone rfl
      rwa [Stepped, List.append_nil]
    · obtain ⟨vs, b, rfl, hk, hb, hend⟩ := hsome k rfl
      rw [he.1, List.append_assoc] at hapart
      have hne : vs ++ b ≠ [] := List.append_ne_nil_of_left_ne_nil hk.ne_nil b
      exact ⟨hfound.concat hapart.of_append hk hb, hend.append_left hne⟩
  · rintro ws ⟨t, hws⟩
    refine .of (t := t) ?_
    rw [List.append_assoc]
    exact hws.keys hfound

theorem breaks_variant? :
    Breaks variant? c
      (fun v? ws _ => TookOrBlanks VariantScanned (PatternWellFormed ·.pattern) v? ws)
      (Begins VariantText) := by
  unfold variant?
  refine Breaks.after runs_skipBlanks fun _ b _ _ hb => Runs.peek ?_
  split
  · refine .pure ?_
    simpa [TookOrBlanks] using hb.1
  · refine Runs.position (breaks_keys.bind ?_ ?_)
    · rintro ws ⟨t, hws⟩
      refine .of (t := t ++ emptyQuoted) ?_
      have hdone := hws.variant hb.1 quotedText_nil
      simpa using hdone
    intro ks ws _ _ hws
    refine Breaks.guard (fun hempty => ?_) fun hne => ?_
    · rw [List.isEmpty_iff] at hempty
      subst hempty
      cases hws
      refine .of (t := '*' :: emptyQuoted) ?_
      have hdone := variantText_catchAll hb.1
      simpa using hdone
    have hkeys : ks ≠ [] := by simpa using hne
    refine breaks_quotedPattern.bind ?_ ?_
    · rintro vs ⟨t, hvs⟩
      refine .of (t := t) ?_
      have hdone := KeysText.variant hb.1 ⟨ks, hws, hkeys⟩ hvs
      simpa using hdone
    rintro p vs _ - ⟨hvs, hp⟩
    refine Runs.spanFrom (.pure ⟨?_, hp⟩)
    rw [List.append_nil]
    exact .mk hb.1 hkeys hws hvs

theorem breaks_variants :
    Breaks (collect fun _ => variant?) c (fun vs us _ => ∃ ws b, us = ws ++ b ∧
      WrittenAll VariantScanned vs ws ∧ (∀ v ∈ vs, PatternWellFormed v.pattern) ∧ Blanks b)
      (Begins VariantsText) := by
  refine (breaks_collect (T := fun _ => True) fun d _ => ?_).imp_passes ?_
  · exact breaks_variant?.imp_passes fun _ _ _ _ h => ⟨h, fun _ => trivial⟩
  · rintro vs _ _ - ⟨ws, b, hus, hws, hvs, hb, -⟩
    exact ⟨ws, b, hus, hws, hvs, hb⟩

theorem breaks_matcher :
    Breaks matcher c (fun m us _ => ∃ ws b, us = ws ++ b ∧ MatcherScanned m ws ∧ Blanks b ∧
      m.PiecesWellFormed) (Begins MatcherText) := by
  unfold matcher
  refine Runs.position (breaks_selectors.bind ?_ ?_)
  · rintro ws ⟨t, hws⟩
    refine .of (t := t ++ (' ' :: '*' :: emptyQuoted)) ?_
    have hdone := hws.matcher_catchAll blanks_space (List.cons_ne_nil _ _)
    simpa using hdone
  rintro ss _ d - ⟨ws, b, rfl, hws, hnames, hb, hstops⟩
  refine Breaks.guard (fun hempty => ?_) fun hne => ?_
  · rw [List.isEmpty_iff] at hempty
    subst hempty
    cases hws
    refine .of (t := ' ' :: '$' :: 'x' :: ' ' :: '*' :: emptyQuoted) ?_
    have hspace : Blanks (b ++ [' ']) := hb.append blanks_space
    have hselector : SelectorText _ := .mk hspace (by simp) isName_x
    have hselectors : SelectorsText _ := .concat .nil (by simp) hselector
    have hdone := hselectors.matcher_catchAll blanks_space (List.cons_ne_nil _ _)
    simpa using hdone
  have hss : ss ≠ [] := by simpa using hne
  have hselectors : SelectorsText ws := ⟨ss, hss, hws, hnames⟩
  refine breaks_variants.passing.bind ?_ ?_
  · rintro vs ⟨hvs, hprefix⟩
    rw [List.append_assoc]
    exact hselectors.begins_matcher hb hvs hprefix (hstops hss)
  rintro variants _ e he ⟨vs, b₁, rfl, hvs, hpatterns, hb₁⟩
  refine Breaks.guard (fun hempty => ?_) fun hne => ?_
  · rw [List.isEmpty_iff] at hempty
    subst hempty
    cases hvs
    refine .of (t := ' ' :: '*' :: emptyQuoted) ?_
    have hspace : Blanks (b ++ (b₁ ++ [' '])) := hb.append (hb₁.append blanks_space)
    have hdone := hselectors.matcher_catchAll hspace (by simp)
    simpa using hdone
  have hvariants : variants ≠ [] := by simpa using hne
  refine Runs.spanFrom (.pure ⟨ws ++ (b ++ vs), b₁, by simp, ?_, hb₁, hss, hnames, hpatterns⟩)
  refine .mk hws (hvs.blanks hvariants hb) hvariants ?_
  rw [he.1, List.append_assoc, ← List.append_assoc] at hstops
  exact (hstops hss).of_append

/-! ## Messages -/

theorem breaks_body :
    Breaks body c (fun b us _ => ∃ ws b₁, us = ws ++ b₁ ∧ BodyScanned b ws ∧ Blanks b₁ ∧
      b.PiecesWellFormed) (Begins BodyText) := by
  have hshort : Begins BodyText [] := .of (t := emptyQuoted) quotedText_nil.body
  unfold body
  refine Breaks.after (runs_keyword? "match") ?_
  rintro (_ | _) ws d - ⟨hfound, hnone⟩
  · cases hnone rfl
    refine Runs.startsWith ?_
    split
    · refine breaks_quotedPattern.bind ?_ ?_
      · rintro ws ⟨t, hws⟩
        exact .of (t := t) hws.body
      rintro p ws _ - ⟨hws, hp⟩
      exact .pure ⟨ws, [], by simp, .pattern hws, blanks_nil, hp⟩
    · refine Runs.peek ?_
      split
      · exact breaks_fail hshort
      · exact breaks_fail hshort
  · obtain ⟨rfl, -⟩ := hfound rfl
    refine breaks_matcher.bind ?_ ?_
    · rintro ws ⟨t, hws⟩
      refine .of (t := t) ?_
      have hdone := hws.body
      simpa using hdone
    rintro m _ _ - ⟨ws, b, rfl, hws, hb, hm⟩
    exact .pure ⟨".match".toList ++ ws, b, by simp, .choice hws, hb, hm⟩

theorem breaks_complexMessage (hinput : ¬ ".input".toList <:+: c.rest) :
    Breaks complexMessage c (fun _ _ _ => True) (Begins MessageText) := by
  unfold complexMessage
  refine (breaks_declarations hinput).bind ?_ ?_
  · rintro ws ⟨t, ds, -, hws, hds⟩
    refine .of (t := t ++ emptyQuoted) ?_
    have hdone := quotedText_nil.body.message hws hds blanks_nil blanks_nil
    simpa using hdone
  rintro ds _ _ - ⟨ws, b, rfl, hws, hds, hb⟩
  refine breaks_body.bind ?_ ?_
  · rintro vs ⟨t, hvs⟩
    refine .of (t := t) ?_
    have hdone := hvs.message hws hds hb blanks_nil
    simpa using hdone
  rintro body _ _ - ⟨vs, b₁, rfl, hvs, hb₁, hbody⟩
  refine Breaks.after runs_skipBlanks fun _ b₂ _ _ hb₂ => Runs.peek ?_
  refine Breaks.guard (fun _ => .of (t := []) ?_) fun _ => .pure trivial
  have hdone := BodyText.message ⟨body, hvs, hbody⟩ hws hds hb (hb₁.append hb₂.1)
  simpa using hdone

theorem breaks_simpleMessage :
    Breaks simpleMessage c (fun _ _ _ => True) (Begins (ItemsText [])) := by
  unfold simpleMessage
  exact (breaks_pattern false).bind (fun _ h => h) fun _ _ _ _ _ => .pure trivial

end Scanner

/-! ## Main statement -/

/-- What begins a simple source begins a source that is read. If it is more than blanks, its first
character that is none is that of the source, and no sign of a complex message; blanks alone may
stand before a quoted pattern. -/
theorem Message.begins_of_simple {ws rest : List Char} (h : Begins (ItemsText []) ws)
    (hsimple : isComplex (ws ++ rest) = false) : Begins MessageText ws := by
  have hsplit : ws = ws.takeWhile isBlank ++ ws.dropWhile isBlank :=
    List.takeWhile_append_dropWhile.symm
  cases hdrop : ws.dropWhile isBlank with
  | nil =>
    rw [hdrop, List.append_nil] at hsplit
    refine .of (t := emptyQuoted) ?_
    have hblanks : Blanks ws := hsplit ▸ blanks_takeWhile ws
    have hdone := quotedText_nil.body.message .nil (by simp) hblanks blanks_nil
    simpa using hdone
  | cons x xs =>
    rw [hdrop] at hsplit
    have hx : isBlank x = false := by
      have hnot := List.head?_dropWhile_not isBlank ws
      rw [hdrop] at hnot
      simpa using hnot
    have hb := blanks_takeWhile ws
    obtain ⟨t, p, hwritten, hp⟩ := h
    have hstop : ∀ b us, Blanks b → ws ++ t ≠ b ++ '.' :: us := by
      intro b us hb' heq
      -- the first character that is no blank would be a full stop, in the source too
      have hstops : Stops isBlank (x :: (xs ++ t)) := stops_cons hx
      have hstops' : Stops isBlank ('.' :: us) := stops_cons (by decide)
      have hfirst := (takeWhile_of_stops hb hstops).2
      have hdot := (takeWhile_of_stops hb' hstops').2
      rw [← heq] at hdot
      rw [hsplit, List.append_assoc, List.cons_append] at hdot hsimple
      rw [hfirst] at hdot
      cases hdot
      rw [isComplex_blanks hb hx] at hsimple
      cases hsimple
    obtain ⟨m, hm, -⟩ := scan_of_simple hwritten hp hstop
    exact .of (t := t) ⟨m, hm⟩

/-- A syntax error is reported no later than where the source goes wrong: what stands before it
begins a source that is read. -/
theorem Message.exists_completion_of_scan_error {source : String} {e : SyntaxError}
    (hinput : ¬ ".input".toList <:+: source.toList) (h : scan source = .error e)
    (hfault : e.fault ≠ .invalidEscape) :
    ∃ before after : String, source = before ++ after ∧ before.utf8ByteSize = e.span.start ∧
      ∃ (t : String) (m : Message), scan (before ++ t) = .ok m := by
  have hbegins : ∃ ws d, (Cursor.ofText source.toList).Passes ws d ∧
      e.span.start = d.position.offset ∧ Begins MessageText ws := by
    rcases Outcome.bind_eq_error h with hrun | ⟨_, _, h⟩
    · split at hrun
      · obtain ⟨ws, d, hws, hbreak⟩ := (Scanner.breaks_complexMessage hinput).fails e hrun
        exact ⟨ws, d, hws, hbreak hfault⟩
      · next hsimple =>
        obtain ⟨ws, d, hws, hbreak⟩ := Scanner.breaks_simpleMessage.fails e hrun
        obtain ⟨hstart, hbegun⟩ := hbreak hfault
        have hsource : isComplex (ws ++ d.rest) = false := by
          rw [← hws.1]
          exact Bool.eq_false_of_not_eq_true hsimple
        exact ⟨ws, d, hws, hstart, begins_of_simple hbegun hsource⟩
    · cases h
  obtain ⟨ws, d, hws, hstart, t, m, hm⟩ := hbegins
  refine ⟨String.ofList ws, String.ofList d.rest, ?_, ?_, String.ofList t, m, ?_⟩
  · rw [← String.ofList_append, ← hws.1]
    exact String.ofList_toList.symm
  · rw [hstart, hws.2, Position.advanceOver_offset, String.utf8ByteSize_ofList]
    exact (Nat.zero_add _).symm
  · rw [← String.ofList_append]
    exact hm

/-- An option named twice, in a variant that has not ended. -/
def unendedSource : String :=
  ".local $é=\x7b|ü|\x7d.match $é 1\x7b\x7ba\x7b$b :f x=1 x=2"

theorem Message.exists_completion_of_scan_error_unended :
    ¬ ".input".toList <:+: unendedSource.toList ∧
      scan unendedSource = .error ⟨.duplicateOption "x", ⟨43, 44, 1, 41⟩⟩ ∧
        ∃ before after : String, unendedSource = before ++ after ∧ before.utf8ByteSize = 43 ∧
          ∃ (t : String) (m : Message), scan (before ++ t) = .ok m := by
  have hinput : ¬ ".input".toList <:+: unendedSource.toList := by decide +kernel
  have hscan : scan unendedSource = .error ⟨.duplicateOption "x", ⟨43, 44, 1, 41⟩⟩ := by
    decide +kernel
  exact ⟨hinput, hscan, exists_completion_of_scan_error hinput hscan (by decide)⟩

end Phrasebook
