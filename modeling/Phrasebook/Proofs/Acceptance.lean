import Phrasebook.Proofs.Outcome
import Phrasebook.Proofs.Scanning

/-!
What the parser accepts is well formed.

`Scanner.Ensures` says what holds of the result and the cursor whenever a scanner succeeds from a
given cursor, and `Scanner.Yields` says what holds of the result from wherever it starts; both go
through binds, and through `collect` as invariants of what was found so far. Two facts need the
cursor: an expression without an operand stands before a colon, and a text ends where no other
can begin. Main statement: `Message.wellFormed_of_parse`, for every source.
-/

namespace Phrasebook

/-! ## Options and patterns that grow -/

theorem OptionsWellFormed.concat {found : List OptionEntry} {o : OptionEntry}
    (h : OptionsWellFormed found) (hname : IsIdentifier o.name) (hvalue : o.value.WellFormed)
    (hnew : ∀ f ∈ found, f.name ≠ o.name) : OptionsWellFormed (found ++ [o]) := by
  refine ⟨?_, ?_, ?_⟩
  · exact List.forall_mem_append.mpr ⟨h.names, List.forall_mem_singleton.mpr hname⟩
  · exact List.forall_mem_append.mpr ⟨h.values, List.forall_mem_singleton.mpr hvalue⟩
  · rw [List.map_append, List.map_singleton, List.nodup_append]
    refine ⟨h.distinct, by simp, ?_⟩
    intro name hfound other hother
    obtain ⟨f, hf, rfl⟩ := List.mem_map.mp hfound
    rw [List.mem_singleton.mp hother]
    exact hnew f hf

theorem TextsParted.concat {p : Pattern} {item : PatternItem} (h : TextsParted p)
    (hlast : ∀ last ∈ p.getLast?, ¬ (last.IsText ∧ item.IsText)) :
    TextsParted (p ++ [item]) := by
  induction p with
  | nil => trivial
  | cons a p ih =>
    cases p with
    | nil => exact ⟨hlast a rfl, trivial⟩
    | cons b rest => exact ⟨h.1, ih h.2 hlast⟩

theorem patternWellFormed_nil : PatternWellFormed [] :=
  ⟨fun _ h => (List.not_mem_nil h).elim, trivial⟩

theorem PatternWellFormed.concat {p : Pattern} {item : PatternItem} (h : PatternWellFormed p)
    (hitem : item.WellFormed) (hlast : ∀ last ∈ p.getLast?, ¬ (last.IsText ∧ item.IsText)) :
    PatternWellFormed (p ++ [item]) :=
  ⟨List.forall_mem_append.mpr ⟨h.items, List.forall_mem_singleton.mpr hitem⟩,
    h.parted.concat hlast⟩

/-! ## Before the last checks -/

/-- The pieces of the matcher are well formed, whether or not they fit together. -/
structure Matcher.PiecesWellFormed (m : Matcher) : Prop where
  nonempty : m.selectors ≠ []
  selectors : ∀ s ∈ m.selectors, IsName s
  patterns : ∀ v ∈ m.variants, PatternWellFormed v.pattern

def Body.PiecesWellFormed : Body → Prop
  | .pattern p => PatternWellFormed p
  | .choice m => m.PiecesWellFormed

/-- The pieces of the message are well formed, whether or not they fit together. -/
structure Message.PiecesWellFormed (m : Message) : Prop where
  declarations : ∀ d ∈ m.declarations, d.WellFormed
  body : m.body.PiecesWellFormed

namespace Scanner

variable {α β : Type} {P : α → Prop} {Q : β → Prop} {s : Scanner α} {g : α → Scanner β}

/-! ## What scanners ensure -/

/-- If the scanner succeeds from the cursor, its result and the cursor after it are related so. -/
def Ensures (s : Scanner α) (c : Cursor) (R : α → Cursor → Prop) : Prop :=
  ∀ a d, s c = .ok (a, d) → R a d

/-- Whatever the scanner gives, from wherever it starts, has the property. -/
def Yields (s : Scanner α) (P : α → Prop) : Prop := ∀ c, Ensures s c fun a _ => P a

section
variable {c : Cursor} {R : α → Cursor → Prop} {S : β → Cursor → Prop}

theorem Ensures.pure {a : α} (h : R a c) : Ensures (pure a) c R := by
  intro a' d hrun
  cases hrun
  exact h

theorem Ensures.bind (hs : Ensures s c R) (hg : ∀ a d, R a d → Ensures (g a) d S) :
    Ensures (s >>= g) c S := by
  intro b d hrun
  obtain ⟨⟨a, c'⟩, hfirst, hrest⟩ := Outcome.bind_eq_ok hrun
  exact hg a c' (hs a c' hfirst) b d hrest

/-- A bind of which only the last scanner matters. -/
theorem Ensures.after (hg : ∀ a d, Ensures (g a) d S) : Ensures (s >>= g) c S :=
  Ensures.bind (R := fun _ _ => True) (fun _ _ _ => trivial) fun a d _ => hg a d

theorem Ensures.peek {g : Option Char → Scanner β} (h : Ensures (g c.rest.head?) c S) :
    Ensures (peek >>= g) c S := h

theorem Ensures.get {g : Cursor → Scanner β} (h : Ensures (g c) c S) :
    Ensures (get >>= g) c S := h

theorem Ensures.set {g : PUnit → Scanner β} {d : Cursor} (h : Ensures (g ⟨⟩) d S) :
    Ensures (set d >>= g) c S := h

theorem Ensures.lift {x : Except SyntaxError α}
    (h : ∀ a, x = .ok a → Ensures (g a) c S) : Ensures ((liftM x : Scanner α) >>= g) c S := by
  cases x with
  | error e => intro b d hrun; cases hrun
  | ok a => exact h a rfl

theorem ensures_fail (fault : SyntaxFault) : Ensures (fail fault) c R := by
  intro a d hrun
  cases hrun

end

theorem Yields.some {a : α} (h : P a) : Yields (pure (some a)) fun a? => ∀ a ∈ a?, P a := by
  refine fun _ => Ensures.pure ?_
  rintro a' ⟨⟩
  exact h

theorem Yields.none : Yields (pure none) fun a? : Option α => ∀ a ∈ a?, P a :=
  fun _ => Ensures.pure fun a ha => by cases ha

theorem Yields.pure {a : α} (h : P a) : Yields (pure a) P := fun _ => Ensures.pure h

theorem Yields.bind (hs : Yields s P) (hg : ∀ a, P a → Yields (g a) Q) : Yields (s >>= g) Q :=
  fun c => (hs c).bind fun a d ha => hg a ha d

theorem Yields.after (hg : ∀ a, Yields (g a) Q) : Yields (s >>= g) Q :=
  fun _ => Ensures.after fun a d => hg a d

theorem yields_failAt (fault : SyntaxFault) (span : Span) : Yields (failAt fault span) P := by
  intro c a d hrun
  cases hrun

theorem yields_fail (fault : SyntaxFault) : Yields (fail fault) P := fun _ => ensures_fail fault

/-- Nothing comes after a failure. -/
theorem Yields.stop (hs : Yields s fun _ => False) : Yields (s >>= g) Q :=
  hs.bind fun _ h => h.elim

/-- A scanner after a check that it passed. -/
theorem Yields.guard {b : Prop} [Decidable b] {fault : SyntaxFault} {rest : PUnit → Scanner β}
    (h : ¬ b → Yields (rest ⟨⟩) Q) : Yields (if b then fail fault >>= rest else rest ⟨⟩) Q := by
  split
  · exact (yields_fail fault).stop
  · next hb => exact h hb

/-! ## Repetition -/

variable {step : List α → Scanner (Option α)}

/-- What a step keeps of the things found and the cursor, a whole repetition keeps. -/
theorem ensures_collectFrom {I : List α → Cursor → Prop}
    (hstep : ∀ found c, I found c →
      Ensures (step found) c fun a? d => ∀ a ∈ a?, I (found ++ [a]) d)
    {found : List α} {c : Cursor} (h : I found c) :
    Ensures (collectFrom step found) c fun as _ => ∃ d, I as d := by
  intro as d hrun
  fun_induction collectFrom step found c with
  | case1 found c e he => cases hrun
  | case2 found c e he =>
    cases hrun
    exact ⟨c, h⟩
  | case3 found c a e he hlt ih => exact ih (hstep found c h _ e he a rfl) hrun
  | case4 found c a e he hlt =>
    cases hrun
    exact ⟨d, hstep found c h _ d he a rfl⟩

theorem yields_collect {I : List α → Prop} (h : I [])
    (hstep : ∀ found, I found → Yields (step found) fun a? => ∀ a ∈ a?, I (found ++ [a])) :
    Yields (collect step) I := by
  intro c as d hrun
  obtain ⟨-, hI⟩ := ensures_collectFrom (I := fun found _ => I found)
    (fun found c hfound => hstep found hfound c) h as d hrun
  exact hI

/-- When each thing that a step reads has a property, all that are read have it. -/
theorem yields_collect_forall {step : Scanner (Option α)}
    (hstep : Yields step fun a? => ∀ a ∈ a?, P a) :
    Yields (collect fun _ => step) fun as => ∀ a ∈ as, P a := by
  refine yields_collect (fun a ha => by cases ha) fun found hfound c a? d hrun a ha => ?_
  exact List.forall_mem_append.mpr ⟨hfound, List.forall_mem_singleton.mpr (hstep c a? d hrun a ha)⟩

/-! ## Names -/

theorem yields_name : Yields name IsName := by
  intro c
  refine Ensures.peek ?_
  split
  · exact ensures_fail _
  · next first hhead =>
    split
    · next hfirst =>
      intro s d hrun
      cases hrun
      obtain ⟨rest, p⟩ := c
      cases rest with
      | nil => cases hhead
      | cons _ cs =>
        cases hhead
        refine ⟨first, cs.takeWhile isNameChar, ?_, hfirst, List.all_eq_true.mp List.all_takeWhile⟩
        rw [String.toList_ofList, List.takeWhile_cons_of_pos (isNameChar_of_isNameStart hfirst)]
    · exact ensures_fail _

theorem yields_identifier : Yields identifier IsIdentifier := by
  unfold identifier
  refine Yields.bind yields_name fun first hfirst => Yields.after fun c => ?_
  split
  · split
    · refine Yields.after fun _ => Yields.bind yields_name fun second hsecond => ?_
      exact .pure (.inr ⟨first, second, hfirst, hsecond, rfl⟩)
    · exact .pure (.inl hfirst)
  · exact .pure (.inl hfirst)

/-! ## Options -/

theorem yields_optionValue : Yields optionValue Operand.WellFormed := by
  unfold optionValue
  refine Yields.after fun next => ?_
  split
  · exact Yields.after fun _ => Yields.bind yields_name fun _ hname => .pure hname
  · exact Yields.after fun _ => .pure trivial

theorem yields_option? {found : List OptionEntry} (h : OptionsWellFormed found) :
    Yields (option? found) fun o? => ∀ o ∈ o?, OptionsWellFormed (found ++ [o]) := by
  unfold option?
  refine Yields.after fun c => Yields.after fun c' => ?_
  split
  · refine Yields.after fun _ => Yields.bind yields_identifier fun name hname => ?_
    dsimp only
    split
    · exact Yields.after fun _ => (yields_failAt _ _).stop
    · next hnew =>
      refine Yields.after fun _ => Yields.after fun _ => Yields.after fun _ => ?_
      refine Yields.bind yields_optionValue fun value hvalue => .some ?_
      refine h.concat hname hvalue fun f hf heq => hnew ?_
      exact List.any_eq_true.mpr ⟨f, hf, beq_iff_eq.mpr heq⟩
  · exact .none

theorem yields_options : Yields options OptionsWellFormed :=
  yields_collect ⟨by simp, by simp, by simp⟩ fun _ => yields_option?

/-! ## Placeholders -/

theorem yields_openingMarkup (start : Position) :
    Yields (openingMarkup start) Markup.WellFormed := by
  unfold openingMarkup
  refine Yields.after fun _ => Yields.bind yields_identifier fun name hname => ?_
  refine Yields.bind yields_options fun options hoptions => ?_
  exact Yields.after fun _ => Yields.after fun _ => Yields.after fun _ => .pure ⟨hname, hoptions⟩

theorem yields_closingMarkup (start : Position) :
    Yields (closingMarkup start) Markup.WellFormed := by
  unfold closingMarkup
  refine Yields.after fun _ => Yields.bind yields_identifier fun name hname => ?_
  refine Yields.bind yields_options fun options hoptions => ?_
  refine Yields.after fun _ => Yields.after fun _ => Yields.after fun _ => Yields.after fun _ => ?_
  exact .pure ⟨hname, hoptions⟩

theorem yields_operand? : Yields operand? fun o? => ∀ o ∈ o?, o.WellFormed := by
  unfold operand?
  refine Yields.after fun next => ?_
  split
  · exact yields_fail _
  · exact Yields.after fun _ => Yields.bind yields_name fun name hname => .some hname
  · exact .none
  · split
    · exact Yields.after fun _ => .some trivial
    · exact yields_fail _

/-- Without an operand, a colon is next. -/
theorem ensures_operand? (c : Cursor) :
    Ensures operand? c fun o? d => o? = none → d.rest.head? = some ':' := by
  unfold operand?
  refine Ensures.peek ?_
  split
  · exact ensures_fail _
  · exact Ensures.after fun _ _ => Ensures.after fun _ _ => .pure fun h => by cases h
  · next hcolon => exact .pure fun _ => hcolon
  · split
    · exact Ensures.after fun _ _ => .pure fun h => by cases h
    · exact ensures_fail _

theorem yields_functionUse? (afterOperand : Bool) :
    Yields (functionUse? afterOperand) fun f? => ∀ f ∈ f?, f.WellFormed := by
  have hcall : Yields (do skip 1; let name ← identifier; return some ⟨name, ← options⟩)
      fun f? : Option FunctionUse => ∀ f ∈ f?, f.WellFormed := by
    refine Yields.after fun _ => Yields.bind yields_identifier fun name hname => ?_
    exact Yields.bind yields_options fun options hoptions => .some ⟨hname, hoptions⟩
  unfold functionUse?
  dsimp only
  split
  all_goals
    refine Yields.after fun parted => Yields.after fun next => ?_
    split
    · exact Yields.guard fun _ => hcall
    · exact .none

/-- Where no operand came before, a colon begins a function. -/
theorem ensures_functionUse? {c : Cursor} (hcolon : c.rest.head? = some ':') :
    Ensures (functionUse? false) c fun f? _ => f?.isSome := by
  unfold functionUse?
  refine Ensures.bind (R := fun parted d => parted = true ∧ d = c) (.pure ⟨rfl, rfl⟩) ?_
  rintro _ _ ⟨rfl, rfl⟩
  refine Ensures.peek ?_
  rw [if_pos hcolon]
  exact Ensures.after fun _ _ => Ensures.after fun _ _ => Ensures.after fun _ _ => .pure rfl

theorem yields_expressionBody (start : Position) :
    Yields (expressionBody start) Expression.WellFormed := by
  intro c
  unfold expressionBody
  refine Ensures.bind (R := fun operand d => (∀ o ∈ operand, o.WellFormed) ∧
    (operand = none → d.rest.head? = some ':')) ?_ ?_
  · exact fun o? d hrun => ⟨yields_operand? c o? d hrun, ensures_operand? c o? d hrun⟩
  rintro operand d ⟨hoperand, hcolon⟩
  refine Ensures.bind (R := fun function _ => (∀ f ∈ function, f.WellFormed) ∧
    (operand.isSome ∨ function.isSome)) ?_ ?_
  · intro f? e hrun
    refine ⟨yields_functionUse? _ d f? e hrun, ?_⟩
    cases operand with
    | some o => exact .inl rfl
    | none => exact .inr (ensures_functionUse? (hcolon rfl) f? e hrun)
  · rintro function e ⟨hfunction, hnonempty⟩
    refine Ensures.after fun _ _ => Ensures.after fun _ _ => Ensures.after fun _ _ => ?_
    exact Ensures.after fun _ _ => .pure ⟨hoperand, hfunction, hnonempty⟩

theorem yields_expression : Yields expression Expression.WellFormed := by
  unfold expression
  refine Yields.after fun start => Yields.after fun _ => Yields.after fun _ => ?_
  refine Yields.after fun next => ?_
  split
  · exact yields_fail _
  · exact yields_fail _
  · exact yields_expressionBody start

theorem yields_placeholder : Yields placeholder fun item => item.WellFormed ∧ ¬ item.IsText := by
  unfold placeholder
  refine Yields.after fun start => Yields.after fun _ => Yields.after fun _ => ?_
  refine Yields.after fun next => ?_
  split
  · exact (yields_openingMarkup start).bind fun m hm => .pure ⟨hm, id⟩
  · exact (yields_closingMarkup start).bind fun m hm => .pure ⟨hm, id⟩
  · exact (yields_expressionBody start).bind fun e he => .pure ⟨he, id⟩

/-! ## Patterns -/

/-- A run of text goes as far as it can: where it ends, no text is next. -/
theorem textRun_textRun {quotedPattern : Bool} {cs run : List Char} {p : Position} {d : Cursor}
    (h : textRun quotedPattern cs p = .ok (run, d)) :
    textRun quotedPattern d.rest d.position = .ok ([], d) := by
  fun_induction textRun quotedPattern cs p generalizing run with
  | case1 p =>
    cases h
    simp [textRun]
  | case2 p => cases h
  | case3 c rest p q hc =>
    rename_i ih
    obtain ⟨⟨cs, e⟩, hrest, h⟩ := Outcome.bind_eq_ok h
    cases h
    exact ih hrest
  | case4 c rest p hc => cases h
  | case5 rest p =>
    cases h
    simp [textRun]
  | case6 rest p hend =>
    cases h
    rw [textRun, if_pos hend]
  | case7 rest p hend => cases h
  | case8 c rest p _ _ _ _ ih =>
    obtain ⟨⟨cs, e⟩, hrest, h⟩ := Outcome.bind_eq_ok h
    cases h
    exact ih hrest

/-- No text is next. -/
def AtMark (quotedPattern : Bool) (c : Cursor) : Prop :=
  textRun quotedPattern c.rest c.position = .ok ([], c)

/-- An item is a text, which does not begin at a mark and ends at one, or a placeholder. -/
theorem ensures_item? (quotedPattern : Bool) (c : Cursor) :
    Ensures (item? quotedPattern) c fun item? d => ∀ item ∈ item?, item.WellFormed ∧
      (item.IsText → ¬ AtMark quotedPattern c ∧ AtMark quotedPattern d) := by
  unfold item?
  refine Ensures.get (Ensures.lift ?_)
  rintro ⟨run, d⟩ hrun
  dsimp only
  split
  · next hne =>
    have hrun' : run ≠ [] := by simpa using hne
    refine Ensures.set (.pure ?_)
    rintro item ⟨⟩
    refine ⟨fun hempty => hrun' ?_, fun _ => ⟨fun hmark => hrun' ?_, textRun_textRun hrun⟩⟩
    · rw [← String.toList_ofList (l := run), hempty, String.toList_empty]
    · rw [AtMark, hrun] at hmark
      cases hmark
      rfl
  · split
    · refine (yields_placeholder c).bind ?_
      rintro item e ⟨hitem, hplaceholder⟩
      refine .pure ?_
      rintro item' ⟨⟩
      exact ⟨hitem, fun htext => absurd htext hplaceholder⟩
    · exact .pure fun item hitem => by cases hitem

/-- The items found are well formed, and after a text the cursor is at a mark. -/
def PatternRead (quotedPattern : Bool) (found : Pattern) (c : Cursor) : Prop :=
  PatternWellFormed found ∧ ∀ last ∈ found.getLast?, last.IsText → AtMark quotedPattern c

theorem PatternRead.concat {quotedPattern : Bool} {found : Pattern} {c d : Cursor}
    {item : PatternItem} (h : PatternRead quotedPattern found c) (hitem : item.WellFormed)
    (htext : item.IsText → ¬ AtMark quotedPattern c ∧ AtMark quotedPattern d) :
    PatternRead quotedPattern (found ++ [item]) d := by
  refine ⟨h.1.concat hitem ?_, ?_⟩
  · exact fun last hlast hboth => (htext hboth.2).1 (h.2 last hlast hboth.1)
  · intro last hlast hlastText
    rw [List.getLast?_append, List.getLast?_singleton] at hlast
    cases hlast
    exact (htext hlastText).2

theorem patternRead_nil (quotedPattern : Bool) (c : Cursor) : PatternRead quotedPattern [] c :=
  ⟨patternWellFormed_nil, fun _ h => by cases h⟩

theorem yields_pattern (quotedPattern : Bool) :
    Yields (pattern quotedPattern) PatternWellFormed := by
  have hitems : Yields (collect fun _ => item? quotedPattern) PatternWellFormed := by
    intro c items d hrun
    have hread : ∃ e, PatternRead quotedPattern items e := by
      refine ensures_collectFrom ?_ (patternRead_nil quotedPattern c) items d hrun
      intro found c hfound item? d hrun item hmem
      obtain ⟨hitem, htext⟩ := ensures_item? quotedPattern c item? d hrun item hmem
      exact hfound.concat hitem htext
    obtain ⟨e, hread⟩ := hread
    exact hread.1
  unfold pattern
  exact hitems.bind fun items h => Yields.after fun next => Yields.guard fun _ => .pure h

theorem yields_quotedPattern : Yields quotedPattern PatternWellFormed := by
  unfold quotedPattern
  refine Yields.after fun braces => Yields.guard fun _ => Yields.after fun _ => ?_
  exact (yields_pattern true).bind fun items h => Yields.after fun _ => .pure h

/-! ## Messages -/

theorem yields_inputDeclaration : Yields inputDeclaration Declaration.WellFormed := by
  unfold inputDeclaration
  refine Yields.after fun _ => yields_expression.bind fun e he => ?_
  split
  · next name hname => exact .pure ⟨he.operand _ hname, he, fun _ => hname⟩
  · exact yields_failAt _ _

theorem yields_bindingDeclaration : Yields bindingDeclaration Declaration.WellFormed := by
  unfold bindingDeclaration
  refine Yields.after fun parted => Yields.guard fun _ => Yields.after fun _ => ?_
  refine yields_name.bind fun name hname => ?_
  refine Yields.after fun _ => Yields.after fun _ => Yields.after fun _ => ?_
  exact yields_expression.bind fun e he => .pure ⟨hname, he, fun hkind => by cases hkind⟩

theorem yields_declaration? : Yields declaration? fun d? => ∀ d ∈ d?, d.WellFormed := by
  unfold declaration?
  refine Yields.after fun _ => Yields.after fun isInput => ?_
  split
  · exact yields_inputDeclaration.bind fun d hd => .some hd
  · refine Yields.after fun isBinding => ?_
    split
    · exact yields_bindingDeclaration.bind fun d hd => .some hd
    · exact .none

theorem yields_selector? : Yields selector? fun s? => ∀ s ∈ s?, IsName s := by
  unfold selector?
  refine Yields.after fun parted => Yields.after fun next => ?_
  split
  · exact Yields.guard fun _ => Yields.after fun _ => yields_name.bind fun s hs => .some hs
  · exact .none

theorem yields_variant? : Yields variant? fun v? => ∀ v ∈ v?, PatternWellFormed v.pattern := by
  unfold variant?
  refine Yields.after fun _ => Yields.after fun next => ?_
  split
  · exact .none
  · refine Yields.after fun start => Yields.after fun keys => Yields.guard fun _ => ?_
    exact yields_quotedPattern.bind fun pattern hpattern => Yields.after fun _ => .some hpattern

theorem yields_matcher : Yields matcher Matcher.PiecesWellFormed := by
  unfold matcher
  refine Yields.after fun start => ?_
  refine (yields_collect_forall yields_selector?).bind fun selectors hselectors => ?_
  refine Yields.guard fun hnonempty => ?_
  refine (yields_collect_forall yields_variant?).bind fun variants hvariants => ?_
  refine Yields.guard fun _ => Yields.after fun _ => .pure ?_
  exact ⟨by simpa using hnonempty, hselectors, hvariants⟩

theorem yields_body : Yields body Body.PiecesWellFormed := by
  unfold body
  refine Yields.after fun isMatch => ?_
  split
  · exact yields_matcher.bind fun m hm => .pure hm
  · refine Yields.after fun isQuoted => ?_
    split
    · exact yields_quotedPattern.bind fun p hp => .pure hp
    · refine Yields.after fun next => ?_
      split
      · exact yields_fail _
      · exact yields_fail _

theorem yields_complexMessage : Yields complexMessage Message.PiecesWellFormed := by
  unfold complexMessage
  refine (yields_collect_forall yields_declaration?).bind fun declarations hdeclarations => ?_
  refine yields_body.bind fun body hbody => Yields.after fun _ => Yields.after fun next => ?_
  exact Yields.guard fun _ => .pure ⟨hdeclarations, hbody⟩

theorem yields_simpleMessage : Yields simpleMessage Message.PiecesWellFormed := by
  unfold simpleMessage
  refine (yields_pattern false).bind fun p hp => .pure ⟨?_, hp⟩
  exact fun d hd => (List.not_mem_nil hd).elim

end Scanner

/-! ## Last checks -/

theorem Message.piecesWellFormed_of_scan {source : String} {m : Message}
    (h : scan source = .ok m) : m.PiecesWellFormed := by
  obtain ⟨⟨m', c⟩, hrun, h⟩ := Outcome.bind_eq_ok h
  cases h
  split at hrun
  · exact Scanner.yields_complexMessage _ _ _ hrun
  · exact Scanner.yields_simpleMessage _ _ _ hrun

theorem Message.nodup_of_firstRedeclaration {ds : List Declaration} {seen : List String}
    (h : firstRedeclaration seen ds = none) :
    (ds.map (·.name)).Nodup ∧ ∀ d ∈ ds, d.name ∉ seen := by
  induction ds generalizing seen with
  | nil => exact ⟨List.nodup_nil, fun d hd => (List.not_mem_nil hd).elim⟩
  | cons d ds ih =>
    rw [firstRedeclaration] at h
    split at h
    · cases h
    · next hnew =>
      obtain ⟨hdistinct, hseen⟩ := ih h
      refine ⟨List.nodup_cons.mpr ⟨?_, hdistinct⟩, List.forall_mem_cons.mpr ⟨hnew, ?_⟩⟩
      · intro hmem
        obtain ⟨e, he, heq⟩ := List.mem_map.mp hmem
        exact hseen e he (heq ▸ List.mem_cons_self)
      · exact fun e he hmem => hseen e he (List.mem_cons_of_mem _ hmem)

theorem Matcher.of_fault?_eq_none {m : Matcher} (h : m.fault? = none) :
    (∀ v ∈ m.variants, v.keys.length = m.selectors.length) ∧
      ∃ v ∈ m.variants, ∀ k ∈ v.keys, k = .catchAll := by
  unfold fault? at h
  split at h
  · cases h
  · next hfind =>
    split at h
    · next hany =>
      obtain ⟨v, hv, hall⟩ := List.any_eq_true.mp hany
      refine ⟨fun w hw => ?_, v, hv, fun k hk => ?_⟩
      · simpa using List.find?_eq_none.mp hfind w hw
      · exact eq_of_beq (List.all_eq_true.mp hall k hk)
    · cases h

theorem Message.of_validate {m : Message} (h : m.validate = .ok ()) :
    (m.declarations.map (·.name)).Nodup ∧ ∀ c, m.body = .choice c → c.fault? = none := by
  unfold validate at h
  split at h
  · cases h
  · next hfirst =>
    refine ⟨(nodup_of_firstRedeclaration hfirst).1, fun c hc => ?_⟩
    rw [hc] at h
    dsimp only at h
    split at h
    · cases h
    · next hfault => exact hfault

theorem Message.of_parse {source : String} {m : Message} (h : parse source = .ok m) :
    scan source = .ok m ∧ m.validate = .ok () := by
  obtain ⟨m', hscan, h⟩ := Outcome.bind_eq_ok h
  obtain ⟨⟨⟩, hvalidate, h⟩ := Outcome.bind_eq_ok h
  cases h
  exact ⟨hscan, hvalidate⟩

/-- What the parser accepts is well formed. -/
theorem Message.wellFormed_of_parse {source : String} {m : Message} (h : parse source = .ok m) :
    m.WellFormed := by
  obtain ⟨hscan, hvalidate⟩ := of_parse h
  obtain ⟨hdistinct, hchoice⟩ := of_validate hvalidate
  obtain ⟨hdeclarations, hbody⟩ := piecesWellFormed_of_scan hscan
  refine ⟨hdeclarations, hdistinct, ?_⟩
  cases hm : m.body with
  | pattern p =>
    rw [hm] at hbody
    exact hbody
  | choice c =>
    rw [hm] at hbody
    obtain ⟨hkeys, hcatchAll⟩ := Matcher.of_fault?_eq_none (hchoice c hm)
    exact ⟨hbody.nonempty, hbody.selectors, hkeys, hbody.patterns, hcatchAll⟩

/-- Declarations, options that need a check, escapes, and a variant with an empty pattern. -/
def wovenSource : String :=
  ".input \x7b$n :x:y a=|\\|| b=$m @c\x7d .local $k = \x7b|v|\x7d .match $n $k " ++
    "1 * \x7b\x7ba\\\x7bb\x7b#i x=1 /\x7dc\x7d\x7d " ++
    "* |z| \x7b\x7b\x7d\x7d * * \x7b\x7b\x7b:f\x7d\x7d\x7d"

theorem Message.wellFormed_of_parse_woven :
    ∃ m, parse wovenSource = .ok m ∧ m.WellFormed := by
  obtain ⟨m, hm⟩ := Outcome.exists_of_isOk (show (parse wovenSource).isOk = true by decide +kernel)
  exact ⟨m, hm, wellFormed_of_parse hm⟩

end Phrasebook
