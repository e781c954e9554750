import Phrasebook.Proofs.Tracing

/-!
The written forms of what is read in braces, and their places.

Options, attributes, markup and expressions are found to be read from their written forms, one
lemma for each scanner. `PatternItem.Placed` says of an item that it is written in some characters
and that its span is theirs; `Scanner.traces_placeholder` and `Scanner.traces_expression` give it
of all that is read in braces.
-/

namespace Phrasebook

/-! ## Written forms that grow -/

/-- A literal that begins with a bar or with a character of a class is one of that class. -/
theorem LiteralWritten.of_start {start : Char → Bool} {s : String} {x : Char} {ws : List Char}
    (h : LiteralWritten isLiteralChar s ws) (hx : ws.head? = some x)
    (hstart : x = '|' ∨ start x = true) : LiteralWritten start s ws := by
  cases h with
  | bars h => exact .bars h
  | @bare y ys hs _ hall =>
    rw [hs, List.head?_cons] at hx
    cases hx
    refine .bare hs ?_ hall
    rcases hstart with rfl | hstart
    · exact absurd (hall '|' List.mem_cons_self) (by decide)
    · exact hstart

/-- What may stand after the name of an attribute. -/
inductive AttributeTail : List Char → Prop
  | bare : AttributeTail []
  | valued {value : String} {b₁ b₂ ws : List Char} :
      Blanks b₁ → Blanks b₂ → LiteralWritten isLiteralChar value ws →
        AttributeTail (b₁ ++ '=' :: (b₂ ++ ws))

theorem AttributeTail.written {name : String} {b ws : List Char} (h : AttributeTail ws)
    (hb : Blanks b) (hname : IsIdentifier name) :
    AttributeWritten () (b ++ '@' :: (name.toList ++ ws)) := by
  cases h with
  | bare =>
    rw [List.append_nil]
    exact .bare hb hname
  | valued hb₁ hb₂ hws => exact .valued hb hname hb₁ hb₂ hws

/-- Blanks may stand before the ending of a placeholder. -/
theorem EndingWritten.blanks_append {b vs : List Char} (hb : Blanks b) (h : EndingWritten vs) :
    EndingWritten (b ++ vs) := by
  obtain @⟨attributes, ws, b', hws, hb'⟩ := h
  cases hws with
  | nil =>
    have hending : EndingWritten ([] ++ (b ++ b')) :=
      .mk .nil (hb.append hb')
    exact hending
  | @cons a as us ws ha has =>
    have hfirst : AttributeWritten () (b ++ us) := by
      cases ha with
      | bare hb₀ hname =>
        rw [← List.append_assoc]
        exact .bare (hb.append hb₀) hname
      | valued hb₀ hname hb₁ hb₂ hw =>
        rw [← List.append_assoc]
        exact .valued (hb.append hb₀) hname hb₁ hb₂ hw
    have hending := EndingWritten.mk (.cons hfirst has) hb'
    simpa using hending

/-- The function of an expression after the blanks before it, or those blanks alone. -/
inductive FunctionTail (afterOperand : Bool) : Option FunctionUse → List Char → Prop
  | none {b : List Char} :
      Blanks b → (afterOperand = false → b = []) → FunctionTail afterOperand .none b
  | some {f : FunctionUse} {b ws : List Char} :
      Blanks b → (b = [] ↔ afterOperand = false) → FunctionWritten f ws →
        FunctionTail afterOperand (.some f) (b ++ ws)

/-- An operand and what follows it are a call, and blanks where there is no function. -/
theorem exists_callWritten {operand : Option Operand} {function : Option FunctionUse}
    {ws vs : List Char} (hoperand : Took (OperandWritten isLiteralStart) operand ws)
    (hfunction : FunctionTail operand.isSome function vs)
    (hnonempty : operand.isSome ∨ function.isSome) :
    ∃ us b, CallWritten operand function us ∧ Blanks b ∧ ws ++ vs = us ++ b := by
  cases operand with
  | none =>
    cases hoperand
    cases hfunction with
    | none => rcases hnonempty with h | h <;> cases h
    | @some f b us hb hnil hf =>
      cases hnil.mpr rfl
      exact ⟨us, [], .function hf, blanks_nil, by simp⟩
  | some operand =>
    cases hfunction with
    | none hb _ => exact ⟨ws, vs, .operand hoperand, hb, rfl⟩
    | @some f b us hb hnil hf =>
      have hne : b ≠ [] := fun heq => by cases hnil.mp heq
      exact ⟨_, [], .both hoperand hb hne hf, blanks_nil, by simp⟩

/-! ## Places of items -/

/-- The span of what stands in braces. -/
def PatternItem.span? : PatternItem → Option Span
  | .text _ => none
  | .expression e => some e.span
  | .markup m => some m.span

/-- The item is written in some characters at a position, and its span is theirs if it has one. -/
structure PatternItem.Placed (item : PatternItem) (p : Position) (ws : List Char) : Prop where
  written : ItemWritten item ws
  span : ∀ s ∈ item.span?, s = p.spanTo (p.advanceOver ws).offset

namespace Scanner

variable {α β : Type} {o c : Cursor} {s : Scanner α} {g : α → Scanner β}
  {R : α → List Char → Prop} {S : β → List Char → Prop}

/-! ## Options -/

theorem traces_optionValue : Traces o optionValue c (OperandWritten isLiteralChar) := by
  unfold optionValue
  refine Traces.peek ?_
  split
  · next h =>
    refine (traces_skip_of_head? h).bind fun _ ws d _ hws => traces_name.bind fun s vs _ _ hvs => ?_
    refine .pure ?_
    rw [hws, hvs, List.append_nil]
    exact .sigil
  · refine traces_literal.bind fun s ws _ _ hws => .pure ?_
    rw [List.append_nil]
    exact .literal hws

theorem traces_option? (found : List OptionEntry) :
    Traces o (option? found) c (Took OptionWritten) := by
  unfold option?
  refine Traces.intro fun ho => Traces.get (Traces.get ?_)
  have hafter := Cursor.passes_skipWhile c isBlank
  dsimp only
  split
  · next hnext =>
    rw [Bool.and_eq_true, decide_eq_true_iff] at hnext
    have hparted : c.rest.takeWhile isBlank ≠ [] := by
      intro hnil
      rw [hnil, Cursor.Passes, List.nil_append] at hafter
      rw [← hafter.1] at hnext
      exact Nat.lt_irrefl _ hnext.1
    refine Traces.set hafter (traces_identifier.bind fun name ws d hd hws => ?_)
    split
    · refine Traces.spanFrom (Traces.bind (R := fun _ _ => False) (traces_failAt _ ?_)
        fun _ _ _ _ hfalse => hfalse.elim)
      exact ⟨_, d, ho.trans hafter.reaches, hd.reaches, rfl⟩
    · refine traces_skipBlanks.bind fun _ b₁ _ _ hb₁ => ?_
      refine (traces_expect '=').bind fun _ eq _ _ heq => ?_
      refine traces_skipBlanks.bind fun _ b₂ _ _ hb₂ => ?_
      refine traces_optionValue.bind fun value vs _ _ hvs => .pure ?_
      subst hws heq
      have hwritten : OptionWritten ⟨name, value⟩
          (c.rest.takeWhile isBlank ++ (name.toList ++ (b₁ ++ '=' :: (b₂ ++ vs)))) :=
        .mk (blanks_takeWhile _) hparted hb₁.1 hb₂.1 hvs
      rw [List.append_nil]
      exact hwritten
  · exact .pure rfl

theorem traces_options : Traces o options c (WrittenAll OptionWritten) :=
  traces_collect_written fun found _ => traces_option? found

/-! ## Attributes -/

theorem traces_attributeValue : Traces o attributeValue c fun _ ws => AttributeTail ws := by
  unfold attributeValue
  refine Traces.get ?_
  dsimp only
  split
  · next hnext =>
    have hequals := (Cursor.passes_skipWhile c isBlank).trans (Cursor.passes_skip_of_head? hnext)
    refine Traces.set hequals (traces_skipBlanks.bind fun _ b₂ _ _ hb₂ => ?_)
    refine traces_literal.bind fun value ws _ _ hws => .pure ?_
    have htail : AttributeTail (c.rest.takeWhile isBlank ++ '=' :: (b₂ ++ ws)) :=
      .valued (blanks_takeWhile _) hb₂.1 hws
    simpa using htail
  · exact .pure .bare

theorem traces_attribute? : Traces o attribute? c (Took AttributeWritten) := by
  unfold attribute?
  refine Traces.get ?_
  dsimp only
  split
  · next hnext =>
    have hat := (Cursor.passes_skipWhile c isBlank).trans (Cursor.passes_skip_of_head? hnext)
    refine Traces.set hat ((traces_identifier.yields yields_identifier).bind ?_)
    rintro name ws d - ⟨rfl, hname⟩
    refine traces_attributeValue.bind fun _ vs _ _ hvs => .pure ?_
    rw [List.append_nil, List.append_assoc]
    exact hvs.written (blanks_takeWhile _) hname
  · exact .pure rfl

/-- Attributes and blanks are the ending of a placeholder. -/
theorem Traces.ending {g : Scanner β}
    (hg : ∀ ws d, EndingWritten ws → Traces o g d fun b vs => S b (ws ++ vs)) :
    Traces o (do attributes; let _ ← skipBlanks; g) c S := by
  have hattributes : Traces o attributes c fun _ ws => ∃ as, WrittenAll AttributeWritten as ws := by
    unfold attributes
    refine (traces_collect_written fun _ _ => traces_attribute?).bind fun as ws _ _ hws => .pure ?_
    rw [List.append_nil]
    exact ⟨as, hws⟩
  refine hattributes.bind fun _ ws _ _ hws => traces_skipBlanks.bind fun _ b d _ hb => ?_
  obtain ⟨as, hws⟩ := hws
  refine (hg (ws ++ b) d (.mk hws hb.1)).imp fun a vs ha => ?_
  rwa [← List.append_assoc]

theorem traces_closingBrace : Traces o closingBrace c fun _ ws => ws = ['\x7d'] := by
  unfold closingBrace
  refine Traces.peek ?_
  split
  · next h => exact traces_skip_of_head? h
  · exact traces_fail _
  · exact traces_fail _

/-! ## Markup -/

theorem traces_markupKind : Traces o markupKind c fun kind ws => kind ≠ .closing ∧
    ∃ vs, EndingWritten vs ∧ ws ++ ['\x7d'] = vs ++ kind.signs.2 := by
  unfold markupKind
  refine Traces.ending fun vs d hvs => Traces.peek ?_
  split
  · next h =>
    refine (traces_skip_of_head? h).bind fun _ us _ _ hus => .pure ⟨by decide, vs, hvs, ?_⟩
    subst hus
    simp [MarkupKind.signs]
  · exact .pure ⟨by decide, vs, hvs, by simp [MarkupKind.signs]⟩

theorem traces_openingMarkup (start : Position) (h : c.rest.head? = some '#') :
    Traces o (openingMarkup start) c fun m ws =>
      ∀ b, Blanks b → MarkupWritten m ('\x7b' :: (b ++ ws)) := by
  unfold openingMarkup
  refine (traces_skip_of_head? h).bind fun _ sign _ _ hsign => ?_
  refine traces_identifier.bind fun name ns _ _ hns => ?_
  refine traces_options.bind fun options os _ _ hos => ?_
  refine traces_markupKind.bind fun kind ks _ _ hks => ?_
  refine traces_closingBrace.bind fun _ brace _ _ hbrace => Traces.spanFrom (.pure fun b hb => ?_)
  obtain ⟨hkind, vs, hvs, hks⟩ := hks
  have hopen : kind.signs.1 = '#' := by
    cases kind with
    | closing => exact absurd rfl hkind
    | opening => rfl
    | standalone => rfl
  subst hsign hns hbrace
  rw [List.append_nil, hks, ← hopen]
  exact .mk (m := ⟨kind, name, options, _⟩) hb hos hvs

theorem traces_closingMarkup (start : Position) (h : c.rest.head? = some '/') :
    Traces o (closingMarkup start) c fun m ws =>
      ∀ b, Blanks b → MarkupWritten m ('\x7b' :: (b ++ ws)) := by
  unfold closingMarkup
  refine (traces_skip_of_head? h).bind fun _ sign _ _ hsign => ?_
  refine traces_identifier.bind fun name ns _ _ hns => ?_
  refine traces_options.bind fun options os _ _ hos => Traces.ending fun vs _ hvs => ?_
  refine traces_closingBrace.bind fun _ brace _ _ hbrace => Traces.spanFrom (.pure fun b hb => ?_)
  subst hsign hns hbrace
  rw [List.append_nil]
  exact .mk (m := ⟨.closing, name, options, _⟩) hb hos hvs

/-! ## Expressions -/

theorem traces_operand? : Traces o operand? c (Took (OperandWritten isLiteralStart)) := by
  unfold operand?
  refine Traces.peek ?_
  split
  · exact traces_fail _
  · next h =>
    refine (traces_skip_of_head? h).bind fun _ ws _ _ hws => traces_name.bind fun s vs _ _ hvs => ?_
    refine .pure ?_
    rw [hws, hvs, List.append_nil]
    exact .sigil
  · exact .pure rfl
  · next x _ _ h =>
    split
    · next hx =>
      refine traces_literal.bind fun s ws d hd hws => .pure ?_
      have hhead : ws.head? = some x := by
        obtain ⟨y, ys, rfl, -⟩ := hws.exists_cons
        rwa [hd.1] at h
      rw [List.append_nil]
      exact .literal (hws.of_start hhead (by simpa using hx))
    · exact traces_fail _

theorem traces_functionUse? (afterOperand : Bool) :
    Traces o (functionUse? afterOperand) c (FunctionTail afterOperand) := by
  have hcall {d : Cursor} (h : d.rest.head? = some ':') :
      Traces o (do skip 1; let name ← identifier; return some ⟨name, ← options⟩) d
        fun f? ws => ∃ f, f? = some f ∧ FunctionWritten f ws := by
    refine (traces_skip_of_head? h).bind fun _ colon _ _ hcolon => ?_
    refine traces_identifier.bind fun name ns _ _ hns => ?_
    refine traces_options.bind fun options os _ _ hos => .pure ⟨⟨name, options⟩, rfl, ?_⟩
    subst hcolon hns
    rw [List.append_nil]
    exact .mk (f := ⟨name, options⟩) hos
  unfold functionUse?
  cases afterOperand with
  | true =>
    refine traces_skipBlanks.bind fun parted b d _ hb => Traces.peek ?_
    split
    · next h =>
      refine Traces.guard fun hparted => (hcall h).imp ?_
      rintro f? ws ⟨f, rfl, hf⟩
      exact .some hb.1 (by simpa using hb.2 (by simpa using hparted)) hf
    · refine .pure ?_
      rw [List.append_nil]
      exact .none hb.1 (by simp)
  | false =>
    refine Traces.bind (R := fun parted ws => parted = true ∧ ws = []) (.pure ⟨rfl, rfl⟩) ?_
    rintro _ _ d - ⟨rfl, rfl⟩
    refine Traces.peek ?_
    split
    · next h =>
      refine Traces.guard fun _ => (hcall h).imp ?_
      rintro f? ws ⟨f, rfl, hf⟩
      exact .some blanks_nil (by simp) hf
    · exact .pure (.none blanks_nil (by simp))

theorem traces_expressionBody (start : Position) :
    Traces o (expressionBody start) c fun e ws =>
      ∀ b, Blanks b → ExpressionWritten e ('\x7b' :: (b ++ ws)) := by
  have hbody : Traces o (expressionBody start) c fun e ws =>
      (e.operand.isSome ∨ e.function.isSome) →
        ∀ b, Blanks b → ExpressionWritten e ('\x7b' :: (b ++ ws)) := by
    unfold expressionBody
    refine traces_operand?.bind fun operand ws _ _ hws => ?_
    refine (traces_functionUse? _).bind fun function vs _ _ hvs => Traces.ending fun es _ hes => ?_
    refine traces_closingBrace.bind fun _ brace _ _ hbrace => Traces.spanFrom (.pure ?_)
    intro hnonempty b hb
    subst hbrace
    obtain ⟨us, b', hus, hb', heq⟩ := exists_callWritten hws hvs hnonempty
    have hwritten (span : Span) :=
      ExpressionWritten.mk (e := ⟨operand, function, span⟩) hb hus (hes.blanks_append hb')
    rw [List.append_nil, ← List.append_assoc ws, heq]
    simpa using hwritten _
  refine (hbody.yields (yields_expressionBody start)).imp ?_
  rintro e ws ⟨hwritten, hwf⟩
  exact hwritten hwf.nonempty

/-! ## Anything in braces -/

theorem ensures_openingMarkup_span (start : Position) :
    Ensures (openingMarkup start) c fun m d => m.span = start.spanTo d.position.offset := by
  unfold openingMarkup
  refine Ensures.after fun _ _ => Ensures.after fun name _ => Ensures.after fun options _ => ?_
  refine Ensures.after fun kind _ => Ensures.after fun _ d => ?_
  intro m e hrun
  cases hrun
  rfl

theorem ensures_closingMarkup_span (start : Position) :
    Ensures (closingMarkup start) c fun m d => m.span = start.spanTo d.position.offset := by
  unfold closingMarkup
  refine Ensures.after fun _ _ => Ensures.after fun name _ => Ensures.after fun options _ => ?_
  refine Ensures.after fun _ _ => Ensures.after fun _ _ => Ensures.after fun _ d => ?_
  intro m e hrun
  cases hrun
  rfl

theorem ensures_expressionBody_span (start : Position) :
    Ensures (expressionBody start) c fun e d => e.span = start.spanTo d.position.offset := by
  unfold expressionBody
  refine Ensures.after fun operand _ => Ensures.after fun function _ => ?_
  refine Ensures.after fun _ _ => Ensures.after fun _ _ => Ensures.after fun _ d => ?_
  intro e d' hrun
  cases hrun
  rfl

/-- What is in braces begins where the scanner does. -/
theorem ensures_position {g : Position → Scanner β} {T : β → Cursor → Prop}
    (h : ∀ d, Ensures (g c.position) d T) : Ensures (position >>= g) c T := by
  refine Ensures.bind (R := fun p _ => p = c.position) ?_ ?_
  · intro p d hrun
    cases hrun
    rfl
  · rintro _ d rfl
    exact h d

theorem ensures_placeholder_span (c : Cursor) :
    Ensures placeholder c fun item d =>
      ∀ s ∈ item.span?, s = c.position.spanTo d.position.offset := by
  unfold placeholder
  refine ensures_position fun _ => Ensures.after fun _ _ => Ensures.after fun _ _ => ?_
  refine Ensures.after fun next _ => ?_
  split
  · refine (ensures_openingMarkup_span c.position).bind fun m d hm => .pure ?_
    rintro s ⟨⟩
    exact hm
  · refine (ensures_closingMarkup_span c.position).bind fun m d hm => .pure ?_
    rintro s ⟨⟩
    exact hm
  · refine (ensures_expressionBody_span c.position).bind fun e d he => .pure ?_
    rintro s ⟨⟩
    exact he

theorem ensures_expression_span (c : Cursor) :
    Ensures expression c fun e d => e.span = c.position.spanTo d.position.offset := by
  unfold expression
  refine ensures_position fun _ => Ensures.after fun _ _ => Ensures.after fun _ _ => ?_
  refine Ensures.after fun next d => ?_
  split
  · exact ensures_fail _
  · exact ensures_fail _
  · exact ensures_expressionBody_span c.position

theorem traces_placeholder : Traces o placeholder c fun item ws => item.Placed c.position ws := by
  have hwritten : Traces o placeholder c ItemWritten := by
    unfold placeholder
    refine Traces.position ((traces_expect '\x7b').bind fun _ brace _ _ hbrace => ?_)
    refine traces_skipBlanks.bind fun _ b d _ hb => Traces.peek ?_
    subst hbrace
    split
    · next h =>
      refine (traces_openingMarkup _ h).bind fun m ws _ _ hws => .pure ?_
      rw [List.append_nil]
      exact .markup (hws b hb.1)
    · next h =>
      refine (traces_closingMarkup _ h).bind fun m ws _ _ hws => .pure ?_
      rw [List.append_nil]
      exact .markup (hws b hb.1)
    · refine (traces_expressionBody _).bind fun e ws _ _ hws => .pure ?_
      rw [List.append_nil]
      exact .expression (hws b hb.1)
  refine (hwritten.ends (T := fun item p => ∀ s ∈ item.span?, s = c.position.spanTo p.offset)
    (ensures_placeholder_span c)).imp fun item ws h => ⟨h.1, h.2⟩

theorem traces_expression :
    Traces o expression c fun e ws => (PatternItem.expression e).Placed c.position ws := by
  have hwritten : Traces o expression c ExpressionWritten := by
    unfold expression
    refine Traces.position ((traces_expect '\x7b').bind fun _ brace _ _ hbrace => ?_)
    refine traces_skipBlanks.bind fun _ b d _ hb => Traces.peek ?_
    subst hbrace
    split
    · exact traces_fail _
    · exact traces_fail _
    · exact (traces_expressionBody _).imp fun e ws hws => hws b hb.1
  refine (hwritten.ends (T := fun e p => e.span = c.position.spanTo p.offset)
    (ensures_expression_span c)).imp fun e ws h => ⟨.expression h.1, ?_⟩
  rintro s ⟨⟩
  exact h.2

end Scanner

end Phrasebook
