import Mathlib.Data.List.Induction
import Mathlib.Data.String.Basic
import Phrasebook.Proofs.PlaceholderTraces

/-!
The spans of a message, and those of errors, are right.

`Laid` says that the items of a pattern are written one after the other, each where it is placed.
`Cursor.Holds` and `Cursor.Marks` say that an item, or the span of a variant or of a matcher, is
that of a stretch of the text; all of a message that is read are, and so is the span of an error,
whether the scanners or the last checks found it. `Span.RightIn` is what this means for the bytes,
lines and columns of the source. Lines and columns are counted in 32 bits, from one; so all of them
are right in a source of fewer than 2^32 - 1 characters (`Message.spans_right`), and at the end of a
longer one a column need not be (`Message.column_not_counted`).
-/

namespace Phrasebook

/-! ## Items in a row -/

/-- Items are written one after the other in some characters, each where the one before ends. -/
inductive Laid : Position → Pattern → List Char → Prop
  | nil {p : Position} : Laid p [] []
  | cons {p : Position} {item : PatternItem} {items : Pattern} {ws vs : List Char} :
      item.Placed p ws → Laid (p.advanceOver ws) items vs → Laid p (item :: items) (ws ++ vs)

theorem Laid.concat {p : Position} {items : Pattern} {item : PatternItem} {ws vs : List Char}
    (h : Laid p items ws) (hitem : item.Placed (p.advanceOver ws) vs) :
    Laid p (items ++ [item]) (ws ++ vs) := by
  induction h with
  | nil =>
    have hlaid := Laid.cons hitem .nil
    rwa [List.append_nil] at hlaid
  | cons hfirst _ ih =>
    rw [Position.advanceOver_append] at hitem
    simpa using Laid.cons hfirst (ih hitem)

namespace Cursor

/-- The item stands somewhere in the text from the cursor on. -/
def Holds (c : Cursor) (item : PatternItem) : Prop :=
  ∃ d ws e, c.Reaches d ∧ d.Passes ws e ∧ item.Placed d.position ws

/-- The span of what stands in a text marks a stretch of it. -/
theorem Holds.marks {c : Cursor} {item : PatternItem} (h : c.Holds item) {s : Span}
    (hs : s ∈ item.span?) : c.Marks s := by
  obtain ⟨d, ws, e, hd, he, hplaced⟩ := h
  have hspan := hplaced.span s hs
  rw [← he.2] at hspan
  exact ⟨d, e, hd, he.reaches, hspan⟩

theorem holds_of_laid {c d e : Cursor} {items : Pattern} {ws : List Char} (hd : c.Reaches d)
    (he : d.Passes ws e) (h : Laid d.position items ws) : ∀ item ∈ items, c.Holds item := by
  obtain ⟨rest, p⟩ := d
  dsimp only at h
  induction h generalizing rest with
  | nil => simp
  | @cons p item items ws vs hitem _ ih =>
    have hfirst : Passes ⟨rest, p⟩ ws ⟨vs ++ e.rest, p.advanceOver ws⟩ :=
      ⟨by rw [he.1, List.append_assoc], rfl⟩
    have hothers : Passes ⟨vs ++ e.rest, p.advanceOver ws⟩ vs e :=
      ⟨rfl, by rw [he.2, Position.advanceOver_append]⟩
    have hheld : c.Holds item := ⟨_, ws, _, hd, hfirst, hitem⟩
    exact List.forall_mem_cons.mpr ⟨hheld, ih _ (hd.trans hfirst.reaches) hothers⟩

end Cursor

/-! ## What is in a message -/

/-- The items of all patterns of a body. -/
def Body.items : Body → List PatternItem
  | .pattern p => p
  | .choice m => m.variants.flatMap (·.pattern)

/-- The spans of the matcher and of its variants, if the body has one. -/
def Body.choiceSpans : Body → List Span
  | .pattern _ => []
  | .choice m => m.span :: m.variants.map (·.span)

/-- The expressions of the declarations, and the items of all patterns. -/
def Message.items (m : Message) : List PatternItem :=
  m.declarations.map (PatternItem.expression ·.expression) ++ m.body.items

/-- The spans of the items in braces. -/
def itemSpans (items : List PatternItem) : List Span := items.filterMap (·.span?)

theorem itemSpans_cons_none {item : PatternItem} {items : List PatternItem}
    (h : item.span? = none) : itemSpans (item :: items) = itemSpans items :=
  List.filterMap_cons_none h

theorem itemSpans_cons_some {item : PatternItem} {items : List PatternItem} {s : Span}
    (h : item.span? = some s) : itemSpans (item :: items) = s :: itemSpans items :=
  List.filterMap_cons_some h

/-- All spans of a message. -/
def Message.spans (m : Message) : List Span := itemSpans m.items ++ m.body.choiceSpans

/-- The body stands in the text from the cursor on. -/
structure Body.StandsIn (b : Body) (o : Cursor) : Prop where
  items : ∀ item ∈ b.items, o.Holds item
  choice : ∀ s ∈ b.choiceSpans, o.Marks s

/-- The message stands in the text from the cursor on. -/
structure Message.StandsIn (m : Message) (o : Cursor) : Prop where
  declarations : ∀ d ∈ m.declarations, o.Holds (.expression d.expression)
  body : m.body.StandsIn o

theorem Message.StandsIn.items {m : Message} {o : Cursor} (h : m.StandsIn o) :
    ∀ item ∈ m.items, o.Holds item := by
  intro item hitem
  rcases List.mem_append.mp hitem with hdeclared | hbody
  · obtain ⟨d, hd, rfl⟩ := List.mem_map.mp hdeclared
    exact h.declarations d hd
  · exact h.body.items item hbody

theorem Message.StandsIn.marks {m : Message} {o : Cursor} (h : m.StandsIn o) :
    ∀ s ∈ m.spans, o.Marks s := by
  intro s hs
  rcases List.mem_append.mp hs with hitem | hchoice
  · obtain ⟨item, hmem, hspan⟩ := List.mem_filterMap.mp hitem
    exact (h.items item hmem).marks hspan
  · exact h.body.choice s hchoice

namespace Scanner

variable {α β : Type} {o c : Cursor} {s : Scanner α} {R : α → List Char → Prop}

/-! ## Patterns -/

theorem passes_of_textRun {quotedPattern : Bool} {cs run : List Char} {p : Position} {d : Cursor}
    (h : textRun quotedPattern cs p = .ok (run, d)) :
    ∃ ws, Escaped PlainInText run ws ∧ Cursor.Passes ⟨cs, p⟩ ws d := by
  fun_induction textRun quotedPattern cs p generalizing run with
  | case1 p =>
    cases h
    exact ⟨[], .nil, .refl _⟩
  | case2 p => cases h
  | case3 x rest p q hx =>
    rename_i ih
    obtain ⟨⟨run', d'⟩, hrest, h⟩ := Outcome.bind_eq_ok h
    cases h
    obtain ⟨ws, hws, hpasses⟩ := ih hrest
    exact ⟨'\\' :: x :: ws, .escaped hx hws, hpasses.cons.cons⟩
  | case4 x rest p hx => cases h
  | case5 rest p =>
    cases h
    exact ⟨[], .nil, .refl _⟩
  | case6 rest p hend =>
    cases h
    exact ⟨[], .nil, .refl _⟩
  | case7 rest p hend => cases h
  | case8 x rest p hlone hpair hopen hclose ih =>
    obtain ⟨⟨run', d'⟩, hrest, h⟩ := Outcome.bind_eq_ok h
    cases h
    obtain ⟨ws, hws, hpasses⟩ := ih hrest
    exact ⟨x :: ws, .plain ⟨hopen, hclose, ne_of_unmatched hlone hpair⟩ hws, hpasses.cons⟩

theorem marks_of_textRun {quotedPattern : Bool} {cs : List Char} {p : Position} {e : SyntaxError}
    (h : textRun quotedPattern cs p = .error e) : Cursor.Marks ⟨cs, p⟩ e.span := by
  fun_induction textRun quotedPattern cs p with
  | case1 p => cases h
  | case2 p =>
    cases h
    exact Cursor.marks_here_of_reaches (Cursor.Passes.refl _).cons.reaches
  | case3 x rest p q hx =>
    rename_i ih
    rcases Outcome.bind_eq_error h with hrest | ⟨_, -, h⟩
    · exact (ih hrest).of_reaches (Cursor.Passes.refl _).cons.cons.reaches
    · cases h
  | case4 x rest p hx =>
    cases h
    exact Cursor.marks_here_of_reaches (Cursor.Passes.refl _).cons.reaches
  | case5 rest p => cases h
  | case6 rest p hend => cases h
  | case7 rest p hend =>
    cases h
    exact Cursor.marks_here _
  | case8 x rest p hlone hpair hopen hclose ih =>
    rcases Outcome.bind_eq_error h with hrest | ⟨_, -, h⟩
    · exact (ih hrest).of_reaches (Cursor.Passes.refl _).cons.reaches
    · cases h

theorem traces_item? (quotedPattern : Bool) :
    Traces o (item? quotedPattern) c (Took fun item ws => item.Placed c.position ws) := by
  unfold item?
  refine Traces.get (Traces.lift (fun e he => marks_of_textRun he) ?_)
  rintro ⟨run, d⟩ hrun
  obtain ⟨ws, hws, hpasses⟩ := passes_of_textRun hrun
  dsimp only
  split
  · have htext : PatternItem.Placed (.text (String.ofList run)) c.position ws :=
      ⟨.text (by rwa [String.toList_ofList]), by simp [PatternItem.span?]⟩
    refine Traces.set hpasses (.pure ?_)
    rwa [List.append_nil]
  · split
    · refine traces_placeholder.bind fun item vs _ _ hvs => .pure ?_
      rwa [List.append_nil]
    · exact .pure rfl

theorem traces_pattern (quotedPattern : Bool) :
    Traces o (pattern quotedPattern) c (Laid c.position) := by
  have hitems : Traces o (collect fun _ => item? quotedPattern) c (Laid c.position) := by
    refine traces_collect (fun found us d hd hfound => (traces_item? quotedPattern).imp ?_) .nil
    rintro (_ | item) ws hws
    · cases hws
      simpa using hfound
    · rw [Took, hd.2] at hws
      exact hfound.concat hws
  unfold pattern
  refine hitems.bind fun items ws _ _ hws => Traces.peek (Traces.guard fun _ => .pure ?_)
  rwa [List.append_nil]

/-- The items that a pattern is read as stand in the text. -/
theorem traces_pattern_items (quotedPattern : Bool) :
    Traces o (pattern quotedPattern) c fun p _ => ∀ item ∈ p, o.Holds item :=
  (traces_pattern quotedPattern).imp_of_passes fun _ _ _ ho hws hp =>
    Cursor.holds_of_laid ho hws hp

theorem traces_quotedPattern :
    Traces o quotedPattern c fun p _ => ∀ item ∈ p, o.Holds item := by
  unfold quotedPattern
  refine (traces_startsWith _).bind fun _ _ _ _ _ => Traces.guard fun _ => ?_
  refine (traces_skip 2).bind fun _ _ _ _ _ => (traces_pattern_items true).bind ?_
  intro p _ _ _ hp
  exact (traces_skip 2).bind fun _ _ _ _ _ => .pure hp

/-! ## Declarations -/

theorem traces_keyword? (word : String) : Traces o (keyword? word) c fun _ _ => True := by
  unfold keyword?
  refine Traces.get ?_
  split
  · exact (traces_skip _).bind fun _ _ _ _ _ => .pure trivial
  · exact .pure trivial

theorem traces_expression_item : Traces o expression c fun e _ => o.Holds (.expression e) :=
  traces_expression.imp_of_passes fun _ ws d ho hws he => ⟨c, ws, d, ho, hws, he⟩

theorem traces_inputDeclaration :
    Traces o inputDeclaration c fun d _ => o.Holds (.expression d.expression) := by
  unfold inputDeclaration
  refine traces_skipBlanks.bind fun _ _ _ _ _ => traces_expression_item.bind ?_
  intro e _ _ _ he
  split
  · exact .pure he
  · exact traces_failAt _ (he.marks rfl)

theorem traces_bindingDeclaration :
    Traces o bindingDeclaration c fun d _ => o.Holds (.expression d.expression) := by
  unfold bindingDeclaration
  refine traces_skipBlanks.bind fun _ _ _ _ _ => Traces.guard fun _ => ?_
  refine (traces_expect '$').bind fun _ _ _ _ _ => traces_name.bind fun name _ _ _ _ => ?_
  refine traces_skipBlanks.bind fun _ _ _ _ _ => (traces_expect '=').bind fun _ _ _ _ _ => ?_
  refine traces_skipBlanks.bind fun _ _ _ _ _ => traces_expression_item.bind ?_
  exact fun e _ _ _ he => .pure he

theorem traces_declaration? :
    Traces o declaration? c fun d? _ => ∀ d ∈ d?, o.Holds (.expression d.expression) := by
  unfold declaration?
  refine traces_skipBlanks.bind fun _ _ _ _ _ => (traces_keyword? _).bind fun isInput _ _ _ _ => ?_
  split
  · exact traces_inputDeclaration.bind fun d _ _ _ hd => .pure (by simpa using hd)
  · refine (traces_keyword? _).bind fun isBinding _ _ _ _ => ?_
    split
    · exact traces_bindingDeclaration.bind fun d _ _ _ hd => .pure (by simpa using hd)
    · exact .pure (by simp)

/-! ## Variants -/

theorem traces_selector? : Traces o selector? c fun _ _ => True := by
  unfold selector?
  refine traces_skipBlanks.bind fun _ _ _ _ _ => Traces.peek ?_
  split
  · refine Traces.guard fun _ => (traces_skip 1).bind fun _ _ _ _ _ => ?_
    exact traces_name.bind fun _ _ _ _ _ => .pure trivial
  · exact .pure trivial

theorem traces_key? : Traces o key? c fun _ _ => True := by
  unfold key?
  refine Traces.peek ?_
  split
  · refine (traces_skip 1).bind fun _ _ _ _ _ => ?_
    exact traces_skipBlanks.bind fun _ _ _ _ _ => .pure trivial
  · split
    · refine traces_literal.bind fun _ _ _ _ _ => ?_
      exact traces_skipBlanks.bind fun _ _ _ _ _ => .pure trivial
    · exact .pure trivial
  · exact .pure trivial

theorem traces_variant? : Traces o variant? c fun v? _ =>
    ∀ v ∈ v?, o.Marks v.span ∧ ∀ item ∈ v.pattern, o.Holds item := by
  unfold variant?
  refine traces_skipBlanks.bind fun _ _ start _ _ => Traces.peek ?_
  split
  · exact .pure (by simp)
  · refine Traces.intro fun ho => Traces.position ?_
    refine (traces_collect_any fun _ => traces_key?).bind ?_
    intro keys _ d hkeys _
    refine Traces.guard fun _ => traces_quotedPattern.bind fun p _ e hp hitems => ?_
    refine Traces.spanFrom (.pure ?_)
    have hspan : o.Marks (start.position.spanTo e.position.offset) :=
      ⟨start, e, ho, hkeys.reaches.trans hp.reaches, rfl⟩
    simpa using ⟨hspan, hitems⟩

theorem traces_matcher : Traces o matcher c fun m _ => (Body.choice m).StandsIn o := by
  unfold matcher
  refine Traces.intro fun ho => Traces.position ?_
  refine (traces_collect_any fun _ => traces_selector?).bind ?_
  intro selectors _ d hselectors _
  refine Traces.guard fun _ => (traces_collect_forall fun _ => traces_variant?).bind ?_
  intro variants _ e hvariants hall
  refine Traces.guard fun _ => Traces.spanFrom (.pure ⟨?_, ?_⟩)
  · intro item hitem
    obtain ⟨v, hv, hitem⟩ := List.mem_flatMap.mp hitem
    exact (hall v hv).2 item hitem
  · have hspan : o.Marks (c.position.spanTo e.position.offset) :=
      ⟨c, e, ho, hselectors.reaches.trans hvariants.reaches, rfl⟩
    refine List.forall_mem_cons.mpr ⟨hspan, fun s hs => ?_⟩
    obtain ⟨v, hv, rfl⟩ := List.mem_map.mp hs
    exact (hall v hv).1

/-! ## Messages -/

theorem traces_body : Traces o body c fun b _ => b.StandsIn o := by
  unfold body
  refine (traces_keyword? _).bind fun isMatch _ _ _ _ => ?_
  split
  · exact traces_matcher.bind fun m _ _ _ hm => .pure hm
  · refine (traces_startsWith _).bind fun isQuoted _ _ _ _ => ?_
    split
    · refine traces_quotedPattern.bind fun p _ _ _ hp => .pure ⟨hp, ?_⟩
      simp [Body.choiceSpans]
    · refine Traces.peek ?_
      split
      · exact traces_fail _
      · exact traces_fail _

theorem traces_complexMessage : Traces o complexMessage c fun m _ => m.StandsIn o := by
  unfold complexMessage
  refine (traces_collect_forall fun _ => traces_declaration?).bind fun declarations _ _ _ hd => ?_
  refine traces_body.bind fun body _ _ _ hbody => traces_skipBlanks.bind fun _ _ _ _ _ => ?_
  exact Traces.peek (Traces.guard fun _ => .pure ⟨hd, hbody⟩)

theorem traces_simpleMessage : Traces o simpleMessage c fun m _ => m.StandsIn o := by
  unfold simpleMessage
  refine (traces_pattern_items false).bind fun p _ _ _ hp => .pure ⟨by simp, hp, ?_⟩
  simp [Body.choiceSpans]

end Scanner

/-! ## Last checks -/

theorem Matcher.marks_of_fault? {m : Matcher} {o : Cursor} (h : (Body.choice m).StandsIn o)
    {e : SyntaxError} (he : m.fault? = some e) : o.Marks e.span := by
  unfold fault? at he
  split at he
  · next v hv =>
    cases he
    have hmem : v.span ∈ (Body.choice m).choiceSpans :=
      List.mem_cons_of_mem _ (List.mem_map_of_mem (List.mem_of_find?_eq_some hv))
    exact h.choice _ hmem
  · split at he
    · cases he
    · cases he
      exact h.choice _ List.mem_cons_self

theorem Message.mem_of_firstRedeclaration {ds : List Declaration} {seen : List String}
    {d : Declaration} (h : firstRedeclaration seen ds = some d) : d ∈ ds := by
  induction ds generalizing seen with
  | nil => cases h
  | cons first rest ih =>
    rw [firstRedeclaration] at h
    split at h
    · cases h
      exact List.mem_cons_self
    · exact List.mem_cons_of_mem _ (ih h)

/-- An error of the last checks is at something that the message has. -/
theorem Message.marks_of_validate {m : Message} {o : Cursor} (h : m.StandsIn o) {e : SyntaxError}
    (he : m.validate = .error e) : o.Marks e.span := by
  unfold validate at he
  split at he
  · next d hd =>
    cases he
    exact (h.declarations d (mem_of_firstRedeclaration hd)).marks rfl
  · obtain ⟨declarations, body⟩ := m
    cases body with
    | pattern p => cases he
    | choice m =>
      dsimp only at he
      split at he
      · next e' he' =>
        cases he
        exact Matcher.marks_of_fault? h.body he'
      · cases he

/-- What is read from a source stands in it, and an error marks a stretch of it. -/
theorem Message.traces_scanner (cs : List Char) :
    Scanner.Traces (.ofText cs) (if isComplex cs then Scanner.complexMessage
      else Scanner.simpleMessage) (.ofText cs) fun m _ => m.StandsIn (.ofText cs) := by
  split
  · exact Scanner.traces_complexMessage
  · exact Scanner.traces_simpleMessage

theorem Message.standsIn_of_scan {source : String} {m : Message} (h : scan source = .ok m) :
    m.StandsIn (.ofText source.toList) := by
  obtain ⟨⟨m', c⟩, hrun, h⟩ := Outcome.bind_eq_ok h
  cases h
  obtain ⟨_, _, hm⟩ := (traces_scanner source.toList).passes _ _ (.refl _) hrun
  exact hm

theorem Message.marks_of_scan {source : String} {e : SyntaxError} (h : scan source = .error e) :
    Cursor.Marks (.ofText source.toList) e.span := by
  rcases Outcome.bind_eq_error h with hrun | ⟨_, _, h⟩
  · exact (traces_scanner source.toList).marks _ (.refl _) hrun
  · cases h

theorem Message.marks_of_parse {source : String} {e : SyntaxError} (h : parse source = .error e) :
    Cursor.Marks (.ofText source.toList) e.span := by
  rcases Outcome.bind_eq_error h with hscan | ⟨m, hscan, h⟩
  · exact marks_of_scan hscan
  · rcases Outcome.bind_eq_error h with hvalidate | ⟨_, _, h⟩
    · exact marks_of_validate (standsIn_of_scan hscan) hvalidate
    · cases h

/-! ## Bytes, lines and columns -/

namespace Position

@[simp] theorem advanceOver_offset (p : Position) (cs : List Char) :
    (p.advanceOver cs).offset = p.offset + String.utf8Len cs := by
  induction cs generalizing p with
  | nil => rfl
  | cons c cs ih =>
    have hrest := ih (p.advance c)
    simp only [advanceOver, List.foldl_cons, advance_offset, String.utf8Len_cons] at hrest ⊢
    omega

theorem advanceOver_concat (p : Position) (cs : List Char) (c : Char) :
    p.advanceOver (cs ++ [c]) = (p.advanceOver cs).advance c := advanceOver_append p cs [c]

/-- A line begins after each line feed. -/
theorem line_advanceOver (p : Position) (cs : List Char) :
    ((p.advanceOver cs).line : Nat) = (p.line + cs.count '\n') % 2 ^ 32 := by
  induction cs using List.reverseRecOn with
  | nil => exact (Nat.mod_eq_of_lt p.line.toNat_lt).symm
  | append_singleton cs c ih =>
    rw [advanceOver_concat, List.count_append, advance]
    split
    · next hc =>
      rw [UInt32.toNat_add, ih, hc, List.count_singleton_self, UInt32.toNat_one]
      omega
    · next hc => simp [ih, hc]

/-- A column counts the characters since the last line feed. -/
theorem column_advanceOver_start (cs : List Char) :
    ((start.advanceOver cs).column : Nat) =
      (1 + (cs.reverse.takeWhile (· ≠ '\n')).length) % 2 ^ 32 := by
  induction cs using List.reverseRecOn with
  | nil => rfl
  | append_singleton cs c ih =>
    rw [advanceOver_concat, List.reverse_concat, advance]
    split
    · next hc => simp [hc]
    · next hc =>
      have htake : (c :: cs.reverse).takeWhile (· ≠ '\n') = c :: cs.reverse.takeWhile (· ≠ '\n') :=
        List.takeWhile_cons_of_pos (by simpa using hc)
      rw [UInt32.toNat_add, ih, htake, List.length_cons, UInt32.toNat_one]
      omega

end Position

/-- The stretch of a text between two of its bytes. -/
def slice (source : String) (start stop : Nat) : String :=
  String.Pos.Raw.extract source ⟨start⟩ ⟨stop⟩

theorem slice_ofList (before ws after : List Char) :
    slice (String.ofList (before ++ ws ++ after)) (String.utf8Len before)
      (String.utf8Len before + String.utf8Len ws) = String.ofList ws :=
  String.extract_of_valid before ws after

theorem slice_end_ofList (before ws : List Char) :
    slice (String.ofList (before ++ ws)) (String.utf8Len before)
      (String.ofList (before ++ ws)).utf8ByteSize = String.ofList ws := by
  have hslice := slice_ofList before ws []
  rw [List.append_nil] at hslice
  rwa [String.utf8ByteSize_ofList, String.utf8Len_append]

/-- The characters of a text before one of its bytes. -/
def charsBefore (source : String) (n : Nat) : List Char := (slice source 0 n).toList

theorem charsBefore_ofList (before after : List Char) :
    charsBefore (String.ofList (before ++ after)) (String.utf8Len before) = before := by
  have hslice := slice_ofList [] before after
  rw [List.nil_append, String.utf8Len_nil, Nat.zero_add] at hslice
  rw [charsBefore, hslice, String.toList_ofList]

/-- The bytes of the span are in the source, between two of its characters on either side, and its
line and column are those of its first byte. -/
structure Span.RightIn (s : Span) (source : String) : Prop where
  ordered : s.start ≤ s.stop
  bounded : s.stop ≤ source.utf8ByteSize
  start_valid : String.Pos.Raw.IsValid source ⟨s.start⟩
  stop_valid : String.Pos.Raw.IsValid source ⟨s.stop⟩
  line : (s.line : Nat) = 1 + (charsBefore source s.start).count '\n'
  column : (s.column : Nat) =
    1 + ((charsBefore source s.start).reverse.takeWhile (· ≠ '\n')).length

theorem isValid_ofList (before after : List Char) :
    String.Pos.Raw.IsValid (String.ofList (before ++ after)) ⟨String.utf8Len before⟩ := by
  rw [String.ofList_append]
  refine String.Pos.Raw.isValid_iff_exists_append.mpr ⟨_, _, rfl, ?_⟩
  ext
  simp

/-- The span of a stretch is right, if 32 bits can count the characters before it from one. -/
theorem Span.rightIn_ofList (before ws after : List Char) (h : before.length < 2 ^ 32 - 1) :
    ((Position.start.advanceOver before).spanTo (String.utf8Len before + String.utf8Len ws)).RightIn
      (String.ofList (before ++ ws ++ after)) := by
  have hstart : ((Position.start.advanceOver before).spanTo
      (String.utf8Len before + String.utf8Len ws)).start = String.utf8Len before := by
    simp [Position.spanTo, Position.start]
  constructor
  · rw [hstart]
    exact Nat.le_add_right _ _
  · simp [Position.spanTo, String.utf8ByteSize_ofList]
  · rw [hstart, List.append_assoc]
    exact isValid_ofList before _
  · have hvalid := isValid_ofList (before ++ ws) after
    rwa [String.utf8Len_append] at hvalid
  · have hcount : before.count '\n' ≤ before.length := List.count_le_length
    have hfits : 1 + before.count '\n' < 2 ^ 32 := by omega
    rw [hstart, List.append_assoc, charsBefore_ofList]
    exact (Position.line_advanceOver _ _).trans (Nat.mod_eq_of_lt hfits)
  · have hcount := (List.takeWhile_sublist (l := before.reverse) (· ≠ '\n')).length_le
    rw [List.length_reverse] at hcount
    rw [hstart, List.append_assoc, charsBefore_ofList]
    exact (Position.column_advanceOver_start before).trans (Nat.mod_eq_of_lt (by omega))

/-- Where a stretch of a text stands in its source. -/
theorem Cursor.exists_split {source : String} {d e : Cursor} {ws : List Char}
    (hd : (Cursor.ofText source.toList).Reaches d) (he : d.Passes ws e) :
    ∃ before, source = String.ofList (before ++ ws ++ e.rest) ∧
      d.position = Position.start.advanceOver before := by
  obtain ⟨before, hbefore, hposition⟩ := hd
  have htext : source.toList = before ++ ws ++ e.rest := by
    rw [List.append_assoc, ← he.1, ← hbefore]
    rfl
  exact ⟨before, by rw [← htext, String.ofList_toList], hposition⟩

theorem Cursor.Marks.rightIn {source : String} {s : Span} (hsize : source.length < 2 ^ 32 - 1)
    (h : (Cursor.ofText source.toList).Marks s) : s.RightIn source := by
  obtain ⟨d, e, hd, ⟨ws, he⟩, rfl⟩ := h
  obtain ⟨before, hsource, hposition⟩ := exists_split hd he
  have hbefore : before.length ≤ source.length := by
    rw [hsource, String.length_ofList, List.append_assoc, List.length_append]
    exact Nat.le_add_right _ _
  have hright := Span.rightIn_ofList before ws e.rest (Nat.lt_of_le_of_lt hbefore hsize)
  have hoffset : e.position.offset = String.utf8Len before + String.utf8Len ws := by
    simp [he.2, hposition, Position.start]
  rwa [← hsource, ← hposition, ← hoffset] at hright

/-- Spans are right everywhere: those of a message, and that of an error. The last column that 32
bits can count is the one after 2^32 - 2 characters. -/
theorem Message.spans_right (source : String) (hsize : source.length < 2 ^ 32 - 1) :
    (∀ m, parse source = .ok m → ∀ s ∈ m.spans, s.RightIn source) ∧
      ∀ e, parse source = .error e → e.span.RightIn source := by
  constructor
  · intro m hm s hs
    have hscan := (of_parse hm).1
    exact ((standsIn_of_scan hscan).marks s hs).rightIn hsize
  · intro e he
    exact (marks_of_parse he).rightIn hsize

/-- Letters of more than one byte, on lines of their own. -/
def accentedSource : String :=
  ".local $é = \x7b|ü|\x7d\n.match $é\n1 \x7b\x7bé\n\x7b$é @x\x7d\x7d\x7d * \x7b\x7b\x7d\x7d"

/-- An option that is named twice, after such letters. -/
def repeatedOptionSource : String := "é\nü\x7b$é :f a=1 a=2\x7d"

theorem Message.spans_right_accented :
    (accentedSource.length < 2 ^ 32 - 1 ∧
        ∃ m, parse accentedSource = .ok m ∧ m.spans.length = 5 ∧
          ∀ s ∈ m.spans, s.RightIn accentedSource) ∧
      repeatedOptionSource.length < 2 ^ 32 - 1 ∧
        ∃ e, parse repeatedOptionSource = .error e ∧ e.span.RightIn repeatedOptionSource := by
  have hsize : accentedSource.length < 2 ^ 32 - 1 := by decide +kernel
  have hsize' : repeatedOptionSource.length < 2 ^ 32 - 1 := by decide +kernel
  refine ⟨⟨hsize, ?_⟩, hsize', ?_⟩
  · have hcount : (parse accentedSource).toOption.map (·.spans.length) = some 5 := by
      decide +kernel
    obtain ⟨m, hm, hlength⟩ := Option.map_eq_some_iff.mp hcount
    have hparse := Outcome.eq_ok_of_toOption hm
    exact ⟨m, hparse, hlength, (spans_right accentedSource hsize).1 m hparse⟩
  · have hfails : (parse repeatedOptionSource).isOk = false := by decide +kernel
    cases he : parse repeatedOptionSource with
    | ok m =>
      rw [he] at hfails
      cases hfails
    | error e => exact ⟨e, rfl, (spans_right repeatedOptionSource hsize').2 e he⟩

/-! ## A column that 32 bits do not hold -/

theorem Scanner.textRun_lone_backslash (quotedPattern : Bool) {cs : List Char}
    (h : ∀ c ∈ cs, PlainInText c) (p : Position) :
    textRun quotedPattern (cs ++ ['\\']) p =
      .error ⟨.invalidEscape, (Cursor.mk [] (p.advanceOver (cs ++ ['\\']))).here⟩ := by
  induction cs generalizing p with
  | nil => rfl
  | cons c cs ih =>
    obtain ⟨hc, hcs⟩ := List.forall_mem_cons.mp h
    rw [List.cons_append, textRun]
    · rw [ih hcs]
      rfl
    · exact fun h => absurd h hc.2.2
    · exact fun _ _ h => absurd h hc.2.2
    · exact hc.1
    · exact hc.2.1

theorem Scanner.bind_eq_error {α β : Type} {s : Scanner α} {g : α → Scanner β} {c : Cursor}
    {e : SyntaxError} (h : s c = .error e) : (s >>= g) c = .error e := by
  show (s c >>= fun x => g x.1 x.2) = _
  rw [h]
  rfl

/-- A backslash that nothing follows is an error at the end of a simple message. -/
theorem Message.parse_lone_backslash {cs : List Char} (h : ∀ c ∈ cs, PlainInText c)
    (hsimple : isComplex (cs ++ ['\\']) = false) :
    parse (String.ofList (cs ++ ['\\'])) = .error ⟨.invalidEscape,
      (Cursor.mk [] (Position.start.advanceOver (cs ++ ['\\']))).here⟩ := by
  have hrun := Scanner.textRun_lone_backslash false h .start
  generalize (⟨.invalidEscape, _⟩ : SyntaxError) = e at hrun ⊢
  have hitem : Scanner.item? false (.ofText (cs ++ ['\\'])) = .error e := by
    show ((Scanner.textRun false (cs ++ ['\\']) .start >>= _) >>= _) = _
    rw [hrun]
    rfl
  have hitems : Scanner.collect (fun _ => Scanner.item? false) (.ofText (cs ++ ['\\'])) =
      .error e := by
    rw [Scanner.collect, Scanner.collectFrom, hitem]
  have hmessage : Scanner.simpleMessage (.ofText (cs ++ ['\\'])) = .error e :=
    Scanner.bind_eq_error (Scanner.bind_eq_error hitems)
  have hscan : scan (String.ofList (cs ++ ['\\'])) = .error e := by
    rw [scan, String.toList_ofList]
    dsimp only
    rw [if_neg (by simp [hsimple]), StateT.run, hmessage]
    rfl
  rw [parse, hscan]
  rfl

/-- Letters, and a backslash that nothing follows. -/
def Message.unescaped (n : Nat) : String := String.ofList (List.replicate n 'a' ++ ['\\'])

theorem Message.length_unescaped (n : Nat) : (unescaped n).length = n + 1 := by
  rw [unescaped, String.length_ofList, List.length_append, List.length_replicate]
  rfl

theorem Position.advanceOver_letters (p : Position) (n : Nat) :
    p.advanceOver (List.replicate n 'a') = ⟨p.offset + n, p.line, p.column + .ofNat n⟩ := by
  induction n generalizing p with
  | zero => simp [advanceOver]
  | succ n ih =>
    have hletter : p.advance 'a' = ⟨p.offset + 1, p.line, p.column + 1⟩ := rfl
    have hcolumn : p.column + 1 + .ofNat n = p.column + .ofNat (n + 1) := by
      rw [Nat.add_comm n, UInt32.ofNat_add, UInt32.add_assoc]
      rfl
    show (p.advance 'a').advanceOver (List.replicate n 'a') = _
    rw [ih, hletter]
    dsimp only
    rw [hcolumn, Nat.add_assoc, Nat.add_comm 1]

/-- The error over the backslash is at the column after it, counted in 32 bits. -/
theorem Message.parse_unescaped (n : Nat) :
    parse (unescaped n) = .error ⟨.invalidEscape, ⟨n + 1, n + 1, 1, .ofNat (n + 2)⟩⟩ := by
  have hplain : ∀ c ∈ List.replicate n 'a', PlainInText c := by
    intro c hc
    rw [List.eq_of_mem_replicate hc]
    unfold PlainInText
    decide
  have hsimple : isComplex (List.replicate n 'a' ++ ['\\']) = false := by cases n <;> rfl
  rw [unescaped, parse_lone_backslash hplain hsimple, Position.advanceOver_append,
    Position.advanceOver_letters]
  have hcolumn : 1 + UInt32.ofNat n + 1 = .ofNat (n + 2) := by
    rw [UInt32.ofNat_add, UInt32.add_comm 1, UInt32.add_assoc]
    rfl
  have hoffset : 0 + n + 1 = n + 1 := by omega
  show Except.error (SyntaxError.mk _ ⟨0 + n + 1, 0 + n + 1 + 0, 1, 1 + UInt32.ofNat n + 1⟩) = _
  rw [hcolumn, hoffset]

/-- A source of fewer than 2^32 characters with an error at a column that is not counted: it is
reported at column 0. -/
theorem Message.column_not_counted :
    let source := unescaped (2 ^ 32 - 2)
    source.length < 2 ^ 32 ∧
      parse source = .error ⟨.invalidEscape, ⟨2 ^ 32 - 1, 2 ^ 32 - 1, 1, 0⟩⟩ ∧
      ¬ (Span.mk (2 ^ 32 - 1) (2 ^ 32 - 1) 1 0).RightIn source := by
  intro source
  refine ⟨?_, parse_unescaped (2 ^ 32 - 2), fun h => ?_⟩
  · rw [length_unescaped]
    omega
  · have hcolumn := h.column
    have hzero : ((0 : UInt32) : Nat) = 0 := rfl
    dsimp only at hcolumn
    omega

end Phrasebook
