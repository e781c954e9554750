import Mathlib.Data.Fintype.EquivFin
import Phrasebook.Proofs.Completions
import Phrasebook.Proofs.PlaceholderTraces
import Phrasebook.Proofs.RoundTrip

/-!
What stands before an error in braces begins something that is well formed.

`Scanner.Breaks` is carried through the scanners for all that is in braces: names and literals,
options, attributes, markup and expressions, with a completion for each of their errors.
-/

namespace Phrasebook

/-! ## Names -/

theorem isName_x : IsName "x" := ⟨'x', [], rfl, rfl, by simp⟩

/-- There is always another name. -/
theorem exists_isName_notMem (names : List String) : ∃ s, IsName s ∧ s ∉ names := by
  obtain ⟨n, hn⟩ := Infinite.exists_notMem_finset (names.map fun s => s.toList.length - 1).toFinset
  rw [List.mem_toFinset] at hn
  refine ⟨String.ofList ('x' :: List.replicate n 'x'), ?_, fun hmem => hn ?_⟩
  · refine ⟨'x', _, String.toList_ofList, rfl, fun d hd => ?_⟩
    rw [List.eq_of_mem_replicate hd]
    rfl
  · refine List.mem_map.mpr ⟨_, hmem, ?_⟩
    simp

/-! ## Kinds of texts -/

/-- A literal between bars. -/
def BarredText (ws : List Char) : Prop :=
  ∃ run us, ws = '|' :: (us ++ ['|']) ∧ Escaped PlainInBars run us

/-- The operand of an expression, or the value of an option. -/
def OperandText (start : Char → Bool) : List Char → Prop :=
  Formed (OperandWritten start) Operand.WellFormed

/-- One more option. -/
def OptionText (found : List OptionEntry) : List Char → Prop :=
  Formed OptionWritten fun o => OptionsWellFormed (found ++ [o])

def OptionsText : List Char → Prop := Formed (WrittenAll OptionWritten) OptionsWellFormed

def MarkupText : List Char → Prop := Formed MarkupWritten Markup.WellFormed

def ExpressionText : List Char → Prop := Formed ExpressionWritten Expression.WellFormed

/-- Anything in braces. -/
def PlaceholderText : List Char → Prop :=
  Formed ItemWritten fun item => item.WellFormed ∧ ¬ item.IsText

/-- What may follow an operand, or stand in its place. -/
def FunctionText (afterOperand : Bool) : List Char → Prop :=
  Formed (FunctionTail afterOperand) fun f? => (∀ f ∈ f?, f.WellFormed) ∧
    (afterOperand = false → f?.isSome)

theorem barredText_nil : BarredText ['|', '|'] := ⟨[], [], rfl, .nil⟩

theorem BarredText.literal {ws : List Char} (h : BarredText ws) (start : Char → Bool) :
    ∃ s, LiteralWritten start s ws := by
  obtain ⟨run, us, rfl, hus⟩ := h
  exact ⟨String.ofList run, .bars (by rwa [String.toList_ofList])⟩

theorem BarredText.operand {ws : List Char} (h : BarredText ws) (start : Char → Bool) :
    OperandText start ws := by
  obtain ⟨s, hs⟩ := h.literal start
  exact ⟨.literal s, .literal hs, trivial⟩

theorem operandText_variable (start : Char → Bool) : OperandText start ['$', 'x'] :=
  ⟨.variable "x", .sigil, isName_x⟩

theorem optionsWellFormed_nil : OptionsWellFormed [] := ⟨by simp, by simp, by simp⟩

/-- A name, options and an ending make markup. -/
theorem MarkupText.mk (kind : MarkupKind) {name : String} {os : List OptionEntry}
    {b ws vs : List Char} (hb : Blanks b) (hname : IsIdentifier name)
    (hws : WrittenAll OptionWritten os ws) (hos : OptionsWellFormed os) (hvs : EndingWritten vs) :
    MarkupText ('\x7b' :: (b ++ kind.signs.1 ::
      (name.toList ++ (ws ++ (vs ++ kind.signs.2))))) :=
  ⟨⟨kind, name, os, .nowhere⟩, .mk hb hws hvs, hname, hos⟩

/-- A call and an ending make an expression, with blanks before them and a brace after. -/
theorem ExpressionText.mk (operand : Option Operand) (function : Option FunctionUse)
    {b ws vs es : List Char} (hb : Blanks b)
    (hws : Took (OperandWritten isLiteralStart) operand ws) (hoperand : ∀ o ∈ operand, o.WellFormed)
    (hvs : FunctionTail operand.isSome function vs) (hfunction : ∀ f ∈ function, f.WellFormed)
    (hnonempty : operand.isSome ∨ function.isSome) (hes : EndingWritten es) :
    ExpressionText ('\x7b' :: (b ++ (ws ++ (vs ++ (es ++ ['\x7d']))))) := by
  obtain ⟨us, b', hus, hb', heq⟩ := exists_callWritten hws hvs hnonempty
  refine ⟨⟨operand, function, .nowhere⟩, ?_, hoperand, hfunction, hnonempty⟩
  have hwritten := ExpressionWritten.mk (e := ⟨operand, function, .nowhere⟩) hb hus
    (hes.blanks_append hb')
  rw [← List.append_assoc ws, heq]
  simpa using hwritten

theorem expressionText_variable {b : List Char} (hb : Blanks b) :
    ExpressionText ('\x7b' :: (b ++ ['$', 'x', '\x7d'])) := by
  have hsigil : OperandWritten isLiteralStart (.variable "x") ['$', 'x'] := .sigil
  have hname : Operand.WellFormed (.variable "x") := isName_x
  exact ExpressionText.mk (some (.variable "x")) none hb hsigil
    (by simpa using hname) (.none blanks_nil fun _ => rfl) (by simp) (.inl rfl) endingWritten_nil

theorem ExpressionText.placeholder {ws : List Char} (h : ExpressionText ws) :
    PlaceholderText ws := by
  obtain ⟨e, hws, he⟩ := h
  exact ⟨.expression e, .expression hws, he, id⟩

theorem MarkupText.placeholder {ws : List Char} (h : MarkupText ws) : PlaceholderText ws := by
  obtain ⟨m, hws, hm⟩ := h
  exact ⟨.markup m, .markup hws, hm, id⟩

namespace Scanner

variable {α β : Type} {c : Cursor} {s : Scanner α} {g : α → Scanner β}
  {S : β → List Char → Cursor → Prop} {Q : List Char → Prop}

/-! ## Names and literals -/

theorem breaks_expect (x : Char) : Breaks (expect x) c (fun _ ws _ => ws = [x]) (· = []) :=
  runs_expect fun _ _ => ⟨rfl, rfl⟩

/-- A name that has begun is read. -/
theorem runs_name_of_start {P : SyntaxError → List Char → Cursor → Prop} {x : Char}
    (h : c.rest.head? = some x) (hx : isNameStart x = true) :
    Runs name c (fun s ws d => ws = s.toList ∧ Stops isNameChar d.rest) P := by
  unfold name
  refine Runs.peek ?_
  rw [h]
  dsimp only
  rw [if_pos hx]
  exact runs_takeWhile isNameChar

theorem breaks_name :
    Breaks name c (fun s ws d => ws = s.toList ∧ IsName s ∧ Stops isNameChar d.rest) (· = []) := by
  have hname : Breaks name c (fun s ws d => ws = s.toList ∧ Stops isNameChar d.rest) (· = []) := by
    unfold name
    refine Runs.peek ?_
    split
    · exact breaks_fail rfl
    · split
      · exact runs_takeWhile isNameChar
      · exact breaks_fail rfl
  exact (hname.ensures (yields_name c)).imp_passes fun _ _ _ _ ha => ⟨ha.1.1, ha.2, ha.1.2⟩

theorem breaks_identifier :
    Breaks identifier c (fun s ws _ => ws = s.toList ∧ IsIdentifier s) (· = []) := by
  refine Breaks.traced ?_ traces_identifier yields_identifier
  unfold identifier
  refine breaks_name.bind (fun _ h => h) fun first ws d _ _ => Runs.get ?_
  split
  · next x rest hrest =>
    split
    · next hx =>
      have hcolon : d.rest.head? = some ':' := by rw [hrest]; rfl
      refine Breaks.after (runs_skip_of_head? hcolon) ?_
      rintro _ _ e he rfl
      have hnext : e.rest.head? = some x := by
        have hsame : ':' :: x :: rest = ':' :: e.rest := hrest.symm.trans he.1
        rw [← (List.cons.inj hsame).2]
        rfl
      exact Breaks.after (runs_name_of_start hnext hx) fun _ _ _ _ _ => .pure trivial
    · exact .pure trivial
  · exact .pure trivial

/-- A literal that does not end can do so with a bar. -/
theorem breaks_of_quoted {cs : List Char} {p : Position} {e : SyntaxError}
    (h : quoted cs p = .error e) :
    ∃ ws d, Cursor.Passes ⟨cs, p⟩ ws d ∧
      BreaksAfter (fun vs => ∃ run, Escaped PlainInBars run vs) e ws d := by
  fun_induction quoted cs p with
  | case1 p =>
    cases h
    exact ⟨[], _, .refl _, fun _ => ⟨rfl, [], .nil⟩⟩
  | case2 rest p => cases h
  | case3 p =>
    cases h
    exact ⟨[], _, .refl _, fun hfault => absurd rfl hfault⟩
  | case4 x rest p q hx =>
    rename_i ih
    rcases Outcome.bind_eq_error h with hrest | ⟨_, -, h⟩
    · obtain ⟨ws, d, hws, hbreak⟩ := ih hrest
      refine ⟨'\\' :: x :: ws, d, hws.cons.cons, fun hfault => ?_⟩
      obtain ⟨hstart, run, hrun⟩ := hbreak hfault
      exact ⟨hstart, x :: run, .escaped hx hrun⟩
    · cases h
  | case5 x rest p q hx =>
    cases h
    exact ⟨[], _, .refl _, fun hfault => absurd rfl hfault⟩
  | case6 x rest p hbar hlone hpair ih =>
    rcases Outcome.bind_eq_error h with hrest | ⟨_, -, h⟩
    · obtain ⟨ws, d, hws, hbreak⟩ := ih hrest
      refine ⟨x :: ws, d, hws.cons, fun hfault => ?_⟩
      obtain ⟨hstart, run, hrun⟩ := hbreak hfault
      exact ⟨hstart, x :: run, .plain ⟨hbar, ne_of_unmatched hlone hpair⟩ hrun⟩
    · cases h

/-- A literal ends with a bar, or where none can go on. -/
theorem breaks_literal :
    Breaks literal c (fun s ws d => LiteralWritten isLiteralChar s ws ∧ Apart ws d.rest)
      (Begins BarredText) := by
  have hliteral : Breaks literal c (fun _ ws d => Apart ws d.rest) (Begins BarredText) := by
    unfold literal
    refine Runs.get ?_
    split
    · next rest hrest =>
      obtain ⟨_, p⟩ := c
      cases hrest
      have hbar : Cursor.Passes ⟨'|' :: rest, p⟩ ['|'] ⟨rest, p.advance '|'⟩ :=
        (Cursor.Passes.refl _).cons
      refine Runs.lift (fun e hrun => ?_) ?_
      · obtain ⟨ws, d, hws, hbreak⟩ := breaks_of_quoted hrun
        refine ⟨['|'] ++ ws, d, hbar.trans hws, fun hfault => ?_⟩
        obtain ⟨hstart, run, hescaped⟩ := hbreak hfault
        exact ⟨hstart, .of (t := ['|']) ⟨run, ws, by simp, hescaped⟩⟩
      · rintro ⟨run, d⟩ hrun
        obtain ⟨ws, -, hpasses⟩ := passes_of_quoted hrun
        refine Breaks.after (runs_set (R := fun _ vs e => vs = ['|'] ++ (ws ++ ['|']) ∧ e = d)
          (hbar.trans hpasses) ⟨rfl, rfl⟩) ?_
        rintro _ _ _ - ⟨rfl, rfl⟩
        -- no literal goes on with a bar, so anything may come after the last one
        refine .pure fun x hx hliteral => ?_
        have hlast : ('|' :: (ws ++ ['|'])).getLast? = some '|' := by
          rw [← List.cons_append, List.getLast?_append, List.getLast?_singleton]
          rfl
        rw [List.append_nil, List.singleton_append, hlast] at hx
        cases hx
        exact absurd hliteral (by decide)
    · refine Breaks.after (runs_takeWhile isLiteralChar) fun s ws d hd hs => ?_
      split
      · next hnil =>
        rw [String.isEmpty_iff] at hnil
        rw [hnil] at hs
        cases hs.1
        exact breaks_fail (.of (t := ['|', '|']) barredText_nil)
      · refine .pure (.of_stops ?_)
        exact hs.2
  exact (hliteral.traces traces_literal).imp_passes fun _ _ _ _ ha => ⟨ha.2, ha.1⟩

/-! ## Options -/

theorem breaks_optionValue :
    Breaks optionValue c (fun o ws _ => OperandWritten isLiteralChar o ws ∧ o.WellFormed)
      (Begins (OperandText isLiteralChar)) := by
  refine Breaks.traced ?_ traces_optionValue yields_optionValue
  unfold optionValue
  refine Runs.peek ?_
  split
  · next h =>
    refine Breaks.after (runs_skip_of_head? h) ?_
    rintro _ _ d - rfl
    refine breaks_name.bind ?_ fun _ _ _ _ _ => .pure trivial
    rintro _ rfl
    exact .of (t := ['x']) (operandText_variable _)
  · refine breaks_literal.bind (fun ws h => ?_) fun _ _ _ _ _ => .pure trivial
    obtain ⟨t, ht⟩ := h
    exact .of (t := t) (ht.operand _)

theorem breaks_option? {found : List OptionEntry} (h : OptionsWellFormed found) :
    Breaks (option? found) c (fun o? ws _ => Took OptionWritten o? ws ∧
      ∀ o ∈ o?, OptionsWellFormed (found ++ [o])) (Begins (OptionText found)) := by
  refine Breaks.traced ?_ (traces_option? found) (yields_option? h)
  unfold option?
  refine Runs.get (Runs.get ?_)
  dsimp only
  split
  · next hnext =>
    rw [Bool.and_eq_true, decide_eq_true_iff] at hnext
    refine Breaks.after (runs_skipWhile isBlank) ?_
    rintro _ b d hd ⟨-, rfl, hb, -⟩
    have hne : b ≠ [] := by
      rintro rfl
      rw [hd.1] at hnext
      exact Nat.lt_irrefl _ hnext.1
    have hoption {name : String} (hname : IsIdentifier name)
        (hnew : ∀ f ∈ found, f.name ≠ name) {b₁ b₂ vs : List Char} (hb₁ : Blanks b₁)
        (hb₂ : Blanks b₂) (hvs : OperandText isLiteralChar vs) :
        OptionText found (b ++ (name.toList ++ (b₁ ++ '=' :: (b₂ ++ vs)))) := by
      obtain ⟨o, hvs, ho⟩ := hvs
      exact ⟨⟨name, o⟩, .mk hb hne hb₁ hb₂ hvs, h.concat hname ho hnew⟩
    have hstart : Begins (OptionText found) (b ++ []) := by
      obtain ⟨name, hname, hfresh⟩ := exists_isName_notMem (found.map (·.name))
      have hnew : ∀ f ∈ found, f.name ≠ name := fun f hf heq =>
        hfresh (List.mem_map.mpr ⟨f, hf, heq⟩)
      refine .of (t := name.toList ++ ['=', '|', '|']) ?_
      have hdone := hoption (.inl hname) hnew blanks_nil blanks_nil (barredText_nil.operand _)
      simpa using hdone
    refine Breaks.checked (breaks_identifier.imp_breaks ?_) hstart ?_
    · rintro _ rfl
      exact hstart
    rintro name ws e hfound - ⟨rfl, hname⟩
    have hnew : ∀ f ∈ found, f.name ≠ name := fun f hf heq =>
      hfound (List.any_eq_true.mpr ⟨f, hf, beq_iff_eq.mpr heq⟩)
    refine Breaks.after runs_skipBlanks fun _ b₁ _ _ hb₁ => ?_
    refine (breaks_expect '=').bind ?_ ?_
    · rintro _ rfl
      refine .of (t := ['=', '|', '|']) ?_
      have hdone := hoption hname hnew hb₁.1 blanks_nil (barredText_nil.operand _)
      simpa using hdone
    rintro _ _ _ - rfl
    refine Breaks.after runs_skipBlanks fun _ b₂ _ _ hb₂ => ?_
    refine breaks_optionValue.bind (fun vs hvs => ?_) fun _ _ _ _ _ => .pure trivial
    obtain ⟨t, ht⟩ := hvs
    refine .of (t := t) ?_
    have hdone := hoption hname hnew hb₁.1 hb₂.1 ht
    simpa using hdone
  · exact .pure trivial

theorem breaks_options :
    Breaks options c (fun os ws _ => WrittenAll OptionWritten os ws ∧ OptionsWellFormed os)
      (Begins OptionsText) := by
  refine runs_collect (I := fun os ws _ => WrittenAll OptionWritten os ws ∧ OptionsWellFormed os)
    ?_ (fun _ _ _ h => h) ⟨.nil, optionsWellFormed_nil⟩
  rintro found us d - ⟨hfound, hwf⟩
  refine (breaks_option? hwf).imp ?_ ?_
  · rintro (_ | o) ws e - ⟨hws, ho⟩
    · cases hws
      exact ⟨by rwa [List.append_nil], hwf⟩
    · exact ⟨hfound.concat hws, ho o rfl⟩
  · rintro ws ⟨t, o, hws, ho⟩
    refine .of (t := t) ⟨found ++ [o], ?_, ho⟩
    rw [List.append_assoc]
    exact hfound.concat hws

/-! ## Attributes -/

theorem breaks_attributeValue :
    Breaks attributeValue c (fun _ ws _ => AttributeTail ws) (Begins AttributeTail) := by
  have hvalue : Breaks attributeValue c (fun _ _ _ => True) (Begins AttributeTail) := by
    unfold attributeValue
    refine Runs.get ?_
    dsimp only
    split
    · next h =>
      refine Breaks.after (runs_skipWhile_skip h) ?_
      rintro _ _ _ - ⟨b, rfl, hb⟩
      refine Breaks.after runs_skipBlanks fun _ b₂ _ _ hb₂ => ?_
      refine breaks_literal.bind (fun vs hvs => ?_) fun _ _ _ _ _ => .pure trivial
      obtain ⟨t, ht⟩ := hvs
      obtain ⟨s, hs⟩ := ht.literal isLiteralChar
      refine .of (t := t) ?_
      have htail := AttributeTail.valued hb hb₂.1 hs
      simpa using htail
    · exact .pure trivial
  exact (hvalue.traces traces_attributeValue).imp_passes fun _ _ _ _ h => h.2

theorem breaks_attribute? :
    Breaks attribute? c (fun a? ws _ => Took AttributeWritten a? ws)
      (Begins (AttributeWritten ())) := by
  have hattribute : Breaks attribute? c (fun _ _ _ => True) (Begins (AttributeWritten ())) := by
    unfold attribute?
    refine Runs.get ?_
    dsimp only
    split
    · next h =>
      refine Breaks.after (runs_skipWhile_skip h) ?_
      rintro _ _ _ - ⟨b, rfl, hb⟩
      refine breaks_identifier.bind ?_ ?_
      · rintro _ rfl
        refine .of (t := ['x']) ?_
        have hx := AttributeTail.bare.written hb (.inl isName_x)
        simpa using hx
      rintro name _ _ - ⟨rfl, hname⟩
      refine breaks_attributeValue.bind (fun vs hvs => ?_) fun _ _ _ _ _ => .pure trivial
      obtain ⟨t, ht⟩ := hvs
      refine .of (t := t) ?_
      have hwritten := ht.written hb hname
      simpa using hwritten
    · exact .pure trivial
  exact (hattribute.traces traces_attribute?).imp_passes fun _ _ _ _ h => h.2

theorem breaks_attributes :
    Breaks attributes c (fun _ ws _ => ∃ as, WrittenAll AttributeWritten as ws)
      (Begins fun vs => ∃ as, WrittenAll AttributeWritten as vs) := by
  have hall : Breaks (collect fun _ => attribute?) c
      (fun as ws _ => WrittenAll AttributeWritten as ws)
      (Begins fun vs => ∃ as, WrittenAll AttributeWritten as vs) := by
    refine runs_collect (I := fun as ws _ => WrittenAll AttributeWritten as ws) ?_
      (fun _ _ _ h => h) .nil
    intro found us d _ hfound
    refine breaks_attribute?.imp ?_ ?_
    · rintro (_ | a) ws e - hws
      · cases hws
        rwa [Stepped, List.append_nil]
      · exact hfound.concat hws
    · rintro ws ⟨t, hws⟩
      refine .of (t := t) ⟨found ++ [()], ?_⟩
      rw [List.append_assoc]
      exact hfound.concat hws
  unfold attributes
  refine hall.bind (fun _ h => h) fun as ws _ _ hws => .pure ?_
  rw [List.append_nil]
  exact ⟨as, hws⟩

/-- Attributes and blanks are the ending of a placeholder. -/
theorem Breaks.ending {g : Scanner β} (hQ : ∀ ws, Begins EndingWritten ws → Q ws)
    (hg : ∀ ws d, c.Passes ws d → EndingWritten ws →
      Breaks g d (fun b vs => S b (ws ++ vs)) fun vs => Q (ws ++ vs)) :
    Breaks (do attributes; let _ ← skipBlanks; g) c S Q := by
  refine breaks_attributes.bind (fun ws h => hQ ws ?_) ?_
  · obtain ⟨t, as, has⟩ := h
    refine .of (t := t) ?_
    have hending := EndingWritten.mk has blanks_nil
    simpa using hending
  · rintro _ ws d hd ⟨as, has⟩
    refine Breaks.after runs_skipBlanks fun _ b e he hb => ?_
    have hrest := hg (ws ++ b) e (hd.trans he) (.mk has hb.1)
    simp only [List.append_assoc] at hrest
    exact hrest

theorem breaks_closingBrace : Breaks closingBrace c (fun _ ws _ => ws = ['\x7d']) (· = []) := by
  unfold closingBrace
  refine Runs.peek ?_
  split
  · next h => exact runs_skip_of_head? h
  · exact breaks_fail rfl
  · exact breaks_fail rfl

/-! ## Markup -/

theorem breaks_markupKind :
    Breaks markupKind c (fun kind ws _ => kind ≠ .closing ∧
      ∃ vs, EndingWritten vs ∧ ws ++ ['\x7d'] = vs ++ kind.signs.2) (Begins EndingWritten) := by
  have hkind : Breaks markupKind c (fun _ _ _ => True) (Begins EndingWritten) := by
    unfold markupKind
    refine Breaks.ending (fun _ h => h) fun _ _ _ _ => Runs.peek ?_
    split
    · next h => exact Breaks.after (runs_skip_of_head? h) fun _ _ _ _ _ => .pure trivial
    · exact .pure trivial
  exact (hkind.traces traces_markupKind).imp_passes fun _ _ _ _ h => h.2

/-- Markup up to its options, after which an ending and a brace may stand. -/
theorem breaks_markup (kind : MarkupKind) {sign : Char} {g : String → List OptionEntry → Scanner β}
    (hsigns : kind.signs = (sign, ['\x7d'])) (h : c.rest.head? = some sign)
    (hg : ∀ name os ws d, IsIdentifier name → WrittenAll OptionWritten os ws →
      OptionsWellFormed os → Breaks (g name os) d (fun _ _ _ => True) fun vs =>
        ∀ b, Blanks b →
          Begins MarkupText ('\x7b' :: (b ++ sign :: (name.toList ++ (ws ++ vs))))) :
    Breaks (do skip 1; let name ← identifier; let os ← options; g name os) c (fun _ _ _ => True)
      fun ws => ∀ b, Blanks b → Begins MarkupText ('\x7b' :: (b ++ ws)) := by
  have hmarkup {name : String} {os : List OptionEntry} {b ws : List Char} (hb : Blanks b)
      (hname : IsIdentifier name) (hws : WrittenAll OptionWritten os ws)
      (hos : OptionsWellFormed os) :
      MarkupText ('\x7b' :: (b ++ sign :: (name.toList ++ (ws ++ ['\x7d'])))) := by
    have hdone := MarkupText.mk kind hb hname hws hos endingWritten_nil
    rwa [hsigns] at hdone
  refine Breaks.after (runs_skip_of_head? h) ?_
  rintro _ _ _ - rfl
  refine breaks_identifier.bind ?_ ?_
  · rintro _ rfl b hb
    refine .of (t := ['x', '\x7d']) ?_
    have hdone := hmarkup hb (.inl isName_x) .nil optionsWellFormed_nil
    simpa using hdone
  rintro name _ _ - ⟨rfl, hname⟩
  refine breaks_options.bind ?_ ?_
  · rintro ws ⟨t, os, hws, hos⟩ b hb
    refine .of (t := t ++ ['\x7d']) ?_
    have hdone := hmarkup hb hname hws hos
    simpa using hdone
  rintro os ws d - ⟨hws, hos⟩
  exact hg name os ws d hname hws hos

theorem breaks_openingMarkup (start : Position) (h : c.rest.head? = some '#') :
    Breaks (openingMarkup start) c (fun _ _ _ => True)
      fun ws => ∀ b, Blanks b → Begins MarkupText ('\x7b' :: (b ++ ws)) := by
  unfold openingMarkup
  refine breaks_markup .opening rfl h fun name os ws _ hname hws hos => ?_
  refine breaks_markupKind.bind ?_ ?_
  · rintro vs ⟨t, hvs⟩ b hb
    refine .of (t := t ++ ['\x7d']) ?_
    have hdone := MarkupText.mk .opening hb hname hws hos hvs
    simpa [MarkupKind.signs] using hdone
  rintro kind ks _ - ⟨hkind, vs, hvs, hks⟩
  refine breaks_closingBrace.bind ?_ fun _ _ _ _ _ => Runs.spanFrom (.pure trivial)
  rintro _ rfl b hb
  refine .of (t := ['\x7d']) ?_
  have hopen : kind.signs.1 = '#' := by
    cases kind with
    | closing => exact absurd rfl hkind
    | opening => rfl
    | standalone => rfl
  have hdone := MarkupText.mk kind hb hname hws hos hvs
  rw [← hks, hopen] at hdone
  simpa using hdone

theorem breaks_closingMarkup (start : Position) (h : c.rest.head? = some '/') :
    Breaks (closingMarkup start) c (fun _ _ _ => True)
      fun ws => ∀ b, Blanks b → Begins MarkupText ('\x7b' :: (b ++ ws)) := by
  unfold closingMarkup
  refine breaks_markup .closing rfl h fun name os ws _ hname hws hos => ?_
  refine Breaks.ending ?_ fun vs _ _ hvs => ?_
  · rintro vs ⟨t, hvs⟩ b hb
    refine .of (t := t ++ ['\x7d']) ?_
    have hdone := MarkupText.mk .closing hb hname hws hos hvs
    simpa [MarkupKind.signs] using hdone
  refine breaks_closingBrace.bind ?_ fun _ _ _ _ _ => Runs.spanFrom (.pure trivial)
  rintro _ rfl b hb
  refine .of (t := ['\x7d']) ?_
  have hdone := MarkupText.mk .closing hb hname hws hos hvs
  simpa [MarkupKind.signs] using hdone

/-! ## Expressions -/

theorem breaks_operand? :
    Breaks operand? c (fun o? ws d => Took (OperandWritten isLiteralStart) o? ws ∧
      (∀ o ∈ o?, o.WellFormed) ∧ (o? = none → d.rest.head? = some ':'))
      (Begins (OperandText isLiteralStart)) := by
  have hoperand : Breaks operand? c (fun _ _ _ => True) (Begins (OperandText isLiteralStart)) := by
    have hvariable : Begins (OperandText isLiteralStart) [] :=
      .of (t := ['$', 'x']) (operandText_variable _)
    unfold operand?
    refine Runs.peek ?_
    split
    · exact breaks_fail hvariable
    · next h =>
      refine Breaks.after (runs_skip_of_head? h) ?_
      rintro _ _ d - rfl
      refine breaks_name.bind ?_ fun _ _ _ _ _ => .pure trivial
      rintro _ rfl
      exact .of (t := ['x']) (operandText_variable _)
    · exact .pure trivial
    · split
      · refine breaks_literal.bind (fun ws h => ?_) fun _ _ _ _ _ => .pure trivial
        obtain ⟨t, ht⟩ := h
        exact .of (t := t) (ht.operand _)
      · exact breaks_fail hvariable
  have hall := (hoperand.traced traces_operand? yields_operand?).ensures (ensures_operand? c)
  exact hall.imp_passes fun _ _ _ _ h => ⟨h.1.1, h.1.2, h.2⟩

theorem breaks_functionUse? {afterOperand : Bool}
    (hcolon : afterOperand = false → c.rest.head? = some ':') :
    Breaks (functionUse? afterOperand) c (fun f? ws _ => FunctionTail afterOperand f? ws ∧
      (∀ f ∈ f?, f.WellFormed) ∧ (afterOperand = false → f?.isSome))
      (Begins (FunctionText afterOperand)) := by
  have hcall {d : Cursor} {b : List Char} (hb : Blanks b) (hnil : b = [] ↔ afterOperand = false)
      (h : d.rest.head? = some ':') :
      Breaks (do skip 1; let f ← identifier; return some (FunctionUse.mk f (← options))) d
        (fun _ _ _ => True) fun vs => Begins (FunctionText afterOperand) (b ++ vs) := by
    refine Breaks.after (runs_skip_of_head? h) ?_
    rintro _ _ _ - rfl
    refine breaks_identifier.bind ?_ ?_
    · rintro _ rfl
      refine .of (t := ['x']) ⟨some ⟨"x", []⟩, ?_, ?_, fun _ => rfl⟩
      · have hf : FunctionWritten ⟨"x", []⟩ [':', 'x'] := .mk (f := ⟨"x", []⟩) .nil
        have htail := FunctionTail.some hb hnil hf
        simpa using htail
      · rintro f ⟨⟩
        exact ⟨.inl isName_x, optionsWellFormed_nil⟩
    rintro name _ _ - ⟨rfl, hname⟩
    refine breaks_options.bind ?_ fun _ _ _ _ _ => .pure trivial
    rintro ws ⟨t, os, hws, hos⟩
    refine .of (t := t) ⟨some ⟨name, os⟩, ?_, ?_, fun _ => rfl⟩
    · have hf := FunctionWritten.mk (f := ⟨name, os⟩) hws
      have htail := FunctionTail.some hb hnil hf
      simpa using htail
    · rintro f ⟨⟩
      exact ⟨hname, hos⟩
  have huse : Breaks (functionUse? afterOperand) c (fun _ _ _ => True)
      (Begins (FunctionText afterOperand)) := by
    unfold functionUse?
    cases afterOperand with
    | true =>
      refine Breaks.after runs_skipBlanks fun parted b d _ hb => Runs.peek ?_
      split
      · next h =>
        refine Breaks.guard (fun _ => ?_) fun hparted => hcall hb.1 ?_ h
        · refine .of (t := []) ⟨none, ?_, by simp, by simp⟩
          have htail : FunctionTail true none b := .none hb.1 (by simp)
          simpa using htail
        · simpa using hb.2.1 (by simpa using hparted)
      · exact .pure trivial
    | false =>
      refine Breaks.after (R := fun parted ws d => parted = true ∧ ws = [] ∧ d = c)
        (.pure ⟨rfl, rfl, rfl⟩) ?_
      rintro _ _ _ - ⟨rfl, rfl, rfl⟩
      refine Runs.peek ?_
      split
      · next h =>
        refine Breaks.guard (fun hfalse => by simp at hfalse) fun _ => ?_
        exact hcall blanks_nil (by simp) h
      · exact .pure trivial
  have hsome : Ensures (functionUse? afterOperand) c fun f? _ =>
      afterOperand = false → f?.isSome := by
    intro f? d hrun hafter
    subst hafter
    exact ensures_functionUse? (hcolon rfl) f? d hrun
  have hall := (huse.traced (traces_functionUse? _) (yields_functionUse? _)).ensures hsome
  exact hall.imp_passes fun _ _ _ _ h => ⟨h.1.1, h.1.2, h.2⟩

theorem breaks_expressionBody (start : Position) :
    Breaks (expressionBody start) c (fun _ _ _ => True)
      fun ws => ∀ b, Blanks b → Begins ExpressionText ('\x7b' :: (b ++ ws)) := by
  unfold expressionBody
  refine breaks_operand?.bind ?_ ?_
  · rintro ws ⟨t, o, hws, ho⟩ b hb
    refine .of (t := t ++ ['\x7d']) ?_
    have hdone := ExpressionText.mk (some o) none hb hws
      (by simpa using ho) (.none blanks_nil fun _ => rfl) (by simp) (.inl rfl) endingWritten_nil
    simpa using hdone
  rintro operand ws d - ⟨hws, hoperand, hcolon⟩
  have hnext : operand.isSome = false → d.rest.head? = some ':' := by
    intro hnone
    exact hcolon (by simpa using hnone)
  have hnonempty {function : Option FunctionUse}
      (h : operand.isSome = false → function.isSome) : operand.isSome ∨ function.isSome := by
    cases hsome : operand.isSome with
    | true => exact .inl rfl
    | false => exact .inr (h hsome)
  refine (breaks_functionUse? hnext).bind ?_ ?_
  · rintro vs ⟨t, function, hvs, hfunction, hsome⟩ b hb
    refine .of (t := t ++ ['\x7d']) ?_
    have hdone := ExpressionText.mk operand function hb hws hoperand hvs hfunction (hnonempty hsome)
      endingWritten_nil
    simpa using hdone
  rintro function vs _ - ⟨hvs, hfunction, hsome⟩
  refine Breaks.ending ?_ fun es _ _ hes => ?_
  · rintro es ⟨t, hes⟩ b hb
    refine .of (t := t ++ ['\x7d']) ?_
    have hdone := ExpressionText.mk operand function hb hws hoperand hvs hfunction (hnonempty hsome) hes
    simpa using hdone
  refine breaks_closingBrace.bind ?_ fun _ _ _ _ _ => Runs.spanFrom (.pure trivial)
  rintro _ rfl b hb
  refine .of (t := ['\x7d']) ?_
  have hdone := ExpressionText.mk operand function hb hws hoperand hvs hfunction (hnonempty hsome) hes
  simpa using hdone

/-! ## Anything in braces -/

theorem breaks_placeholder :
    Breaks placeholder c (fun item ws _ => ItemWritten item ws ∧ item.WellFormed ∧ ¬ item.IsText)
      (Begins PlaceholderText) := by
  have hplaceholder : Breaks placeholder c (fun _ _ _ => True) (Begins PlaceholderText) := by
    unfold placeholder
    refine Runs.position ((breaks_expect '\x7b').bind ?_ ?_)
    · rintro _ rfl
      exact .of (t := ['\x7b', '$', 'x', '\x7d']) (expressionText_variable blanks_nil).placeholder
    rintro _ _ _ - rfl
    refine Breaks.after runs_skipBlanks fun _ b d _ hb => Runs.peek ?_
    split
    · next h =>
      refine (breaks_openingMarkup _ h).bind (fun ws hws => ?_) fun _ _ _ _ _ => .pure trivial
      obtain ⟨t, ht⟩ := hws b hb.1
      exact .of (t := t) ht.placeholder
    · next h =>
      refine (breaks_closingMarkup _ h).bind (fun ws hws => ?_) fun _ _ _ _ _ => .pure trivial
      obtain ⟨t, ht⟩ := hws b hb.1
      exact .of (t := t) ht.placeholder
    · refine (breaks_expressionBody _).bind (fun ws hws => ?_) fun _ _ _ _ _ => .pure trivial
      obtain ⟨t, ht⟩ := hws b hb.1
      exact .of (t := t) ht.placeholder
  refine (hplaceholder.traced traces_placeholder yields_placeholder).imp_passes ?_
  exact fun _ _ _ _ h => ⟨h.1.written, h.2⟩

theorem breaks_expression :
    Breaks expression c (fun e ws _ => ExpressionWritten e ws ∧ e.WellFormed)
      (Begins ExpressionText) := by
  have hexpression : Breaks expression c (fun _ _ _ => True) (Begins ExpressionText) := by
    unfold expression
    refine Runs.position ((breaks_expect '\x7b').bind ?_ ?_)
    · rintro _ rfl
      exact .of (t := ['\x7b', '$', 'x', '\x7d']) (expressionText_variable blanks_nil)
    rintro _ _ _ - rfl
    refine Breaks.after runs_skipBlanks fun _ b d _ hb => Runs.peek ?_
    have hopened : Begins ExpressionText ('\x7b' :: (b ++ [])) := by
      refine .of (t := ['$', 'x', '\x7d']) ?_
      simpa using expressionText_variable hb.1
    split
    · exact breaks_fail hopened
    · exact breaks_fail hopened
    · refine (breaks_expressionBody _).imp_breaks fun ws hws => ?_
      exact hws b hb.1
  refine (hexpression.traced traces_expression yields_expression).imp_passes ?_
  intro e ws d _ h
  cases h.1.written with
  | expression he => exact ⟨he, h.2⟩

end Scanner

end Phrasebook
