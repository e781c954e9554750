import Phrasebook.Proofs.Messages

/-!
Parsing undoes writing.

Every well-formed message has a written form, and parsing any of its written forms gives it back
up to spans. What is left to show here is that a form is taken for the one it is, complex or
simple, and that a well-formed message passes the last checks.
-/

namespace Phrasebook

/-! ## Written forms exist -/

theorem exists_escaped {plain : Char → Prop} (h : ∀ c, plain c ∨ isEscapable c = true)
    (cs : List Char) : ∃ ws, Escaped plain cs ws := by
  induction cs with
  | nil => exact ⟨[], .nil⟩
  | cons c cs ih =>
    obtain ⟨ws, hws⟩ := ih
    rcases h c with hc | hc
    · exact ⟨_, .plain hc hws⟩
    · exact ⟨_, .escaped hc hws⟩

theorem exists_writtenAll {α : Type} {W : α → List Char → Prop} {as : List α}
    (h : ∀ a ∈ as, ∃ ws, W a ws) : ∃ ws, WrittenAll W as ws := by
  induction as with
  | nil => exact ⟨[], .nil⟩
  | cons a as ih =>
    obtain ⟨ws, hws⟩ := h a List.mem_cons_self
    obtain ⟨vs, hvs⟩ := ih fun b hb => h b (List.mem_cons_of_mem _ hb)
    exact ⟨ws ++ vs, .cons hws hvs⟩

theorem exists_literalWritten (start : Char → Bool) (s : String) :
    ∃ ws, LiteralWritten start s ws := by
  have hplain : ∀ c, PlainInBars c ∨ isEscapable c = true := by
    intro c
    by_cases hbar : c = '|'
    · exact .inr (by rw [hbar]; rfl)
    · by_cases hbackslash : c = '\\'
      · exact .inr (by rw [hbackslash]; rfl)
      · exact .inl ⟨hbar, hbackslash⟩
  obtain ⟨ws, hws⟩ := exists_escaped hplain s.toList
  exact ⟨_, .bars hws⟩

theorem exists_operandWritten (start : Char → Bool) (o : Operand) :
    ∃ ws, OperandWritten start o ws := by
  cases o with
  | «variable» name => exact ⟨_, .sigil⟩
  | literal s =>
    obtain ⟨ws, hws⟩ := exists_literalWritten start s
    exact ⟨ws, .literal hws⟩

/-- A blank to stand where one must. -/
theorem blanks_space : Blanks [' '] := by
  intro c hc
  rw [List.mem_singleton.mp hc]
  rfl

theorem exists_optionsWritten (os : List OptionEntry) :
    ∃ ws, WrittenAll OptionWritten os ws := by
  refine exists_writtenAll fun o _ => ?_
  obtain ⟨ws, hws⟩ := exists_operandWritten isLiteralChar o.value
  exact ⟨_, .mk blanks_space (List.cons_ne_nil _ _) blanks_nil blanks_nil hws⟩

theorem exists_functionWritten (f : FunctionUse) : ∃ ws, FunctionWritten f ws := by
  obtain ⟨ws, hws⟩ := exists_optionsWritten f.options
  exact ⟨_, .mk hws⟩

theorem endingWritten_nil : EndingWritten [] := .mk .nil blanks_nil

theorem Expression.WellFormed.exists_written {e : Expression} (h : e.WellFormed) :
    ∃ ws, ExpressionWritten e ws := by
  have hcall : ∃ ws, CallWritten e.operand e.function ws := by
    cases ho : e.operand with
    | none =>
      cases hf : e.function with
      | none =>
        have hnonempty := h.nonempty
        rw [ho, hf] at hnonempty
        rcases hnonempty with h | h <;> cases h
      | some f =>
        obtain ⟨ws, hws⟩ := exists_functionWritten f
        exact ⟨ws, .function hws⟩
    | some o =>
      obtain ⟨ws, hws⟩ := exists_operandWritten isLiteralStart o
      cases hf : e.function with
      | none => exact ⟨ws, .operand hws⟩
      | some f =>
        obtain ⟨vs, hvs⟩ := exists_functionWritten f
        exact ⟨_, .both hws blanks_space (List.cons_ne_nil _ _) hvs⟩
  obtain ⟨ws, hws⟩ := hcall
  exact ⟨_, .mk blanks_nil hws endingWritten_nil⟩

theorem PatternWellFormed.exists_written {p : Pattern} (h : PatternWellFormed p) :
    ∃ ws, QuotedWritten p ws := by
  have hplain : ∀ c, PlainInText c ∨ isEscapable c = true := by
    intro c
    by_cases hc : isEscapable c = true
    · exact .inr hc
    · simp only [isEscapable, Bool.or_eq_true, beq_iff_eq, not_or] at hc
      exact .inl ⟨hc.1.1.2, hc.1.2, hc.1.1.1⟩
  have hitems : ∃ ws, WrittenAll ItemWritten p ws := by
    refine exists_writtenAll fun item hitem => ?_
    have hwf := h.items item hitem
    cases item with
    | text s =>
      obtain ⟨ws, hws⟩ := exists_escaped hplain s.toList
      exact ⟨ws, .text hws⟩
    | expression e =>
      obtain ⟨ws, hws⟩ := Expression.WellFormed.exists_written hwf
      exact ⟨ws, .expression hws⟩
    | markup m =>
      obtain ⟨ws, hws⟩ := exists_optionsWritten m.options
      exact ⟨_, .markup (.mk blanks_nil hws endingWritten_nil)⟩
  obtain ⟨ws, hws⟩ := hitems
  exact ⟨_, .mk hws⟩

theorem Declaration.WellFormed.exists_written {d : Declaration} (h : d.WellFormed) :
    ∃ ws, DeclarationWritten d ws := by
  obtain ⟨ws, hws⟩ := h.expression.exists_written
  obtain ⟨kind, name, e⟩ := d
  cases kind with
  | input => exact ⟨_, .input blanks_nil blanks_nil hws⟩
  | binding =>
    exact ⟨_, .binding blanks_nil blanks_space (List.cons_ne_nil _ _) blanks_nil blanks_nil hws⟩

theorem exists_keyText (k : VariantKey) : ∃ ws, KeyText k ws := by
  cases k with
  | catchAll => exact ⟨_, .catchAll⟩
  | literal s =>
    obtain ⟨ws, hws⟩ := exists_literalWritten isLiteralStart s
    exact ⟨ws, .literal hws⟩

theorem Body.WellFormed.exists_written {body : Body} (h : body.WellFormed) :
    ∃ ws, BodyWritten body ws := by
  cases body with
  | pattern p =>
    obtain ⟨ws, hws⟩ := PatternWellFormed.exists_written h
    exact ⟨ws, .pattern hws⟩
  | choice m =>
    have hselectors : ∃ ws, WrittenAll SelectorWritten m.selectors ws :=
      exists_writtenAll fun _ _ => ⟨_, .mk blanks_space (List.cons_ne_nil _ _)⟩
    have hvariants : ∃ ws, WrittenAll VariantWritten m.variants ws := by
      refine exists_writtenAll fun v hv => ?_
      have hkeys : ∃ ws, WrittenAll KeyWritten v.keys ws := by
        refine exists_writtenAll fun k _ => ?_
        obtain ⟨ws, hws⟩ := exists_keyText k
        exact ⟨_, .mk blanks_space (List.cons_ne_nil _ _) hws⟩
      obtain ⟨ws, hws⟩ := hkeys
      obtain ⟨vs, hvs⟩ := (Matcher.WellFormed.patterns h v hv).exists_written
      exact ⟨_, .mk hws blanks_nil hvs⟩
    obtain ⟨ws, hws⟩ := hselectors
    obtain ⟨vs, hvs⟩ := hvariants
    exact ⟨_, .choice hws hvs⟩

theorem Message.WellFormed.exists_written {m : Message} (h : m.WellFormed) :
    ∃ cs, m.Written cs := by
  obtain ⟨ws, hws⟩ := exists_writtenAll fun d hd => (h.declarations d hd).exists_written
  obtain ⟨vs, hvs⟩ := h.body.exists_written
  exact ⟨_, .complex hws blanks_nil hvs blanks_nil⟩

/-! ## Complex and simple forms -/

theorem Message.isComplex_blanks {b cs : List Char} {c : Char} (hb : Blanks b)
    (hc : isBlank c = false) :
    isComplex (b ++ c :: cs) = (c == '.' || ['\x7b', '\x7b'].isPrefixOf (c :: cs)) := by
  unfold isComplex
  rw [(takeWhile_of_stops hb (stops_cons hc)).2]
  rfl

theorem Message.isComplex_of_complex {declarations : List Declaration} {body : Body}
    {ws b vs b₁ : List Char} (h : WrittenAll DeclarationWritten declarations ws) (hb : Blanks b)
    (hbody : BodyScanned body vs) : isComplex (ws ++ (b ++ (vs ++ b₁))) = true := by
  cases h with
  | nil =>
    cases hbody with
    | pattern hq =>
      cases hq
      exact isComplex_blanks hb (by decide)
    | choice _ => exact isComplex_blanks hb (by decide)
  | cons hd _ =>
    cases hd with
    | input hb' _ _ =>
      simp only [List.append_assoc]
      exact isComplex_blanks hb' (by decide)
    | binding hb' _ _ _ _ _ =>
      simp only [List.append_assoc]
      exact isComplex_blanks hb' (by decide)

/-- No double braces after blanks. -/
def Unquoted (ws : List Char) : Prop := ∀ b rest, Blanks b → ws ≠ b ++ '\x7b' :: '\x7b' :: rest

theorem Unquoted.cons {c : Char} {ws : List Char} (hc : c ≠ '\x7b') (h : Unquoted ws) :
    Unquoted (c :: ws) := by
  intro b rest hb heq
  cases b with
  | nil => cases heq; exact hc rfl
  | cons d b =>
    cases heq
    exact h b rest (fun e he => hb e (List.mem_cons_of_mem _ he)) rfl

theorem unquoted_of_escaped {cs ws vs : List Char} (h : Escaped PlainInText cs ws)
    (hvs : Unquoted vs) : Unquoted (ws ++ vs) := by
  induction h with
  | nil => exact hvs
  | plain hc _ ih => exact ih.cons hc.1
  | escaped _ _ _ =>
    intro b rest hb heq
    cases b with
    | nil => cases heq
    | cons d b =>
      obtain ⟨rfl, -⟩ := List.cons.inj heq
      have hbackslash := hb '\\' List.mem_cons_self
      cases hbackslash

/-- A brace with something else after it begins no quoted pattern. -/
theorem unquoted_brace {c : Char} {ws : List Char} (hc : c ≠ '\x7b') :
    Unquoted ('\x7b' :: c :: ws) := by
  intro b rest hb heq
  cases b with
  | nil => cases heq; exact hc rfl
  | cons d b =>
    obtain ⟨rfl, -⟩ := List.cons.inj heq
    have hbrace := hb '\x7b' List.mem_cons_self
    cases hbrace

theorem unquoted_blanks_append {c : Char} {b ws : List Char} (hb : Blanks b) (hc : c ≠ '\x7b') :
    Unquoted ('\x7b' :: (b ++ c :: ws)) := by
  cases b with
  | nil => exact unquoted_brace hc
  | cons d b =>
    refine unquoted_brace ?_
    rintro rfl
    have hbrace := hb '\x7b' List.mem_cons_self
    cases hbrace

theorem unquoted_of_items {p : Pattern} {ws : List Char} (h : WrittenAll ItemWritten p ws) :
    Unquoted ws := by
  induction h with
  | nil =>
    intro b rest _ heq
    cases b <;> cases heq
  | cons hitem _ ih =>
    cases hitem with
    | text hs => exact unquoted_of_escaped hs ih
    | expression he =>
      cases he with
      | mk hb hcall _ =>
        obtain ⟨c, cs, rfl, -, -, -, hc⟩ := hcall.exists_cons
        simp only [List.append_assoc, List.cons_append]
        exact unquoted_blanks_append hb hc
    | @markup m _ hm =>
      cases hm with
      | mk hb _ _ =>
        have hsign : m.kind.signs.1 ≠ '\x7b' := by cases m.kind <;> decide
        simp only [List.append_assoc, List.cons_append]
        exact unquoted_blanks_append hb hsign

theorem Message.isComplex_of_simple {p : Pattern} {ws : List Char}
    (h : WrittenAll ItemWritten p ws) (hstop : ∀ b rest, Blanks b → ws ≠ b ++ '.' :: rest) :
    isComplex ws = false := by
  have hunquoted := unquoted_of_items h
  have hb : Blanks (ws.takeWhile isBlank) := List.all_eq_true.mp List.all_takeWhile
  have hsplit : ws = ws.takeWhile isBlank ++ ws.dropWhile isBlank :=
    List.takeWhile_append_dropWhile.symm
  unfold isComplex
  dsimp only
  cases hdrop : ws.dropWhile isBlank with
  | nil => rfl
  | cons c cs =>
    rw [hdrop] at hsplit
    have hstop' : c ≠ '.' := by
      rintro rfl
      exact hstop _ _ hb hsplit
    have hunquoted' : ['\x7b', '\x7b'].isPrefixOf (c :: cs) = false := by
      rw [Bool.eq_false_iff]
      intro hlead
      obtain ⟨rest, hrest⟩ := List.isPrefixOf_iff_prefix.mp hlead
      rw [← hrest] at hsplit
      exact hunquoted _ _ hb hsplit
    rw [hunquoted', List.head?_cons, Bool.or_false]
    simpa using hstop'

/-! ## Last checks -/

theorem Message.firstRedeclaration_eq_none {ds : List Declaration} {seen : List String}
    (h : (ds.map (·.name)).Nodup) (hseen : ∀ d ∈ ds, d.name ∉ seen) :
    firstRedeclaration seen ds = none := by
  induction ds generalizing seen with
  | nil => rfl
  | cons d ds ih =>
    rw [List.map_cons, List.nodup_cons] at h
    rw [firstRedeclaration, if_neg (hseen d List.mem_cons_self)]
    refine ih h.2 fun e he => ?_
    have hne : e.name ≠ d.name := by
      intro heq
      exact h.1 (heq ▸ List.mem_map_of_mem he)
    rw [List.mem_cons, not_or]
    exact ⟨hne, hseen e (List.mem_cons_of_mem _ he)⟩

theorem Matcher.WellFormed.fault?_eq_none {m : Matcher} (h : m.WellFormed) : m.fault? = none := by
  have hkeys : m.variants.find? (·.keys.length != m.selectors.length) = none := by
    rw [List.find?_eq_none]
    intro v hv
    simp [h.keys v hv]
  have hcatchAll : m.variants.any (·.isCatchAll) = true := by
    obtain ⟨v, hv, hall⟩ := h.catchAll
    rw [List.any_eq_true]
    refine ⟨v, hv, ?_⟩
    rw [Variant.isCatchAll, List.all_eq_true]
    intro k hk
    rw [hall k hk]
    rfl
  rw [Matcher.fault?, hkeys, hcatchAll]
  rfl

theorem Message.validate_of_wellFormed {m : Message} (h : m.WellFormed) :
    m.validate = .ok () := by
  have hdistinct : firstRedeclaration [] m.declarations = none :=
    firstRedeclaration_eq_none h.distinct fun _ _ => List.not_mem_nil
  unfold validate
  rw [hdistinct]
  cases hbody : m.body with
  | pattern p => rfl
  | choice c =>
    have hc := h.body
    rw [hbody] at hc
    have hfault := Matcher.WellFormed.fault?_eq_none hc
    dsimp only
    rw [hfault]
    rfl

/-- A fault at no place in particular. -/
def SyntaxError.unplaced (e : SyntaxError) : SyntaxError := ⟨e.fault, .nowhere⟩

@[simp] theorem Declaration.unplaced_name (d : Declaration) : d.unplaced.name = d.name := rfl

theorem Message.firstRedeclaration_unplaced (seen : List String) (ds : List Declaration) :
    firstRedeclaration seen (ds.map Declaration.unplaced) =
      (firstRedeclaration seen ds).map Declaration.unplaced := by
  induction ds generalizing seen with
  | nil => rfl
  | cons d ds ih =>
    rw [List.map_cons, firstRedeclaration, firstRedeclaration, Declaration.unplaced_name]
    by_cases hseen : d.name ∈ seen
    · rw [if_pos hseen, if_pos hseen, Option.map_some]
    · rw [if_neg hseen, if_neg hseen]
      exact ih (d.name :: seen)

theorem Matcher.fault?_unplaced (m : Matcher) :
    m.unplaced.fault? = m.fault?.map SyntaxError.unplaced := by
  have hkeys : (m.variants.map Variant.unplaced).find? (·.keys.length != m.selectors.length) =
      (m.variants.find? (·.keys.length != m.selectors.length)).map Variant.unplaced := by
    rw [List.find?_map]
    rfl
  have hcatchAll : (m.variants.map Variant.unplaced).any (·.isCatchAll) =
      m.variants.any (·.isCatchAll) := by
    rw [List.any_map]
    rfl
  unfold Matcher.fault? Matcher.unplaced
  dsimp only
  rw [hkeys, hcatchAll]
  cases m.variants.find? (·.keys.length != m.selectors.length) with
  | some v => rfl
  | none =>
    cases m.variants.any (·.isCatchAll) with
    | true => rfl
    | false => rfl

/-- The last checks find the same faults wherever a message was read from. -/
theorem Message.validate_unplaced (m : Message) :
    m.unplaced.validate = m.validate.mapError SyntaxError.unplaced := by
  have hdeclarations := firstRedeclaration_unplaced [] m.declarations
  obtain ⟨declarations, body⟩ := m
  unfold validate Message.unplaced
  dsimp only at hdeclarations ⊢
  rw [hdeclarations]
  cases firstRedeclaration [] declarations with
  | some d => rfl
  | none =>
    cases body with
    | pattern p => rfl
    | choice m =>
      dsimp only [Option.map_none, Body.unplaced]
      rw [m.fault?_unplaced]
      cases m.fault? with
      | some e => rfl
      | none => rfl

/-- A message that looks like one that passes the last checks passes them. -/
theorem Message.validate_of_unplaced {m m' : Message} (hm : m.WellFormed)
    (h : m'.unplaced = m.unplaced) : m'.validate = .ok () := by
  have hmapped : m'.validate.mapError SyntaxError.unplaced = .ok () := by
    rw [← validate_unplaced, h, validate_unplaced, validate_of_wellFormed hm]
    rfl
  cases hvalidate : m'.validate with
  | ok _ => rfl
  | error e =>
    rw [hvalidate] at hmapped
    cases hmapped

/-! ## Main statement -/

/-- The complex form of a message is read as that message, whether or not its pieces fit
together. -/
theorem Message.scan_of_complex {m : Message} {ws b vs b₁ : List Char}
    (h : WrittenAll DeclarationWritten m.declarations ws) (hb : Blanks b)
    (hbody : BodyScanned m.body vs) (hb₁ : Blanks b₁) (hm : m.PiecesWellFormed) :
    ∃ m', scan (String.ofList (ws ++ (b ++ (vs ++ b₁)))) = .ok m' ∧ m'.unplaced = m.unplaced := by
  unfold scan
  rw [String.toList_ofList]
  dsimp only
  obtain ⟨m', q, hm', hrun⟩ := Scanner.reads_complexMessage h hb hbody hb₁ hm Position.start
  rw [isComplex_of_complex h hb hbody, if_pos rfl]
  refine ⟨m', ?_, hm'⟩
  rw [StateT.run, Cursor.ofText, hrun]
  rfl

/-- A pattern that does not look like a complex message is read as that pattern. -/
theorem Message.scan_of_simple {p : Pattern} {ws : List Char} (h : WrittenAll ItemWritten p ws)
    (hp : PatternWellFormed p) (hstop : ∀ b rest, Blanks b → ws ≠ b ++ '.' :: rest) :
    ∃ m', scan (String.ofList ws) = .ok m' ∧
      m'.unplaced = (Message.mk [] (.pattern p)).unplaced := by
  unfold scan
  rw [String.toList_ofList]
  dsimp only
  obtain ⟨m', q, hm', hrun⟩ := Scanner.reads_simpleMessage h hp Position.start
  rw [isComplex_of_simple h hstop, if_neg (by decide)]
  refine ⟨m', ?_, hm'⟩
  rw [StateT.run, Cursor.ofText, hrun]
  rfl

theorem Message.scan_of_written {m : Message} {cs : List Char} (h : m.Written cs)
    (hm : m.WellFormed) :
    ∃ m', scan (String.ofList cs) = .ok m' ∧ m'.unplaced = m.unplaced := by
  cases h with
  | complex hdeclarations hb hbody hb₁ =>
    exact scan_of_complex hdeclarations hb (hbody.scanned hm.body) hb₁
      ⟨hm.declarations, hm.body.pieces⟩
  | simple hitems hstop => exact scan_of_simple hitems hm.body hstop

/-- A written form of a well-formed message is parsed as that message, up to spans. -/
theorem Message.parse_of_written {m : Message} {cs : List Char} (h : m.Written cs)
    (hm : m.WellFormed) :
    ∃ m', parse (String.ofList cs) = .ok m' ∧ m'.unplaced = m.unplaced := by
  obtain ⟨m', hscan, hm'⟩ := scan_of_written h hm
  have hvalid : m'.validate = .ok () := validate_of_unplaced hm hm'
  refine ⟨m', ?_, hm'⟩
  simp only [parse, hscan, hvalid, bind, Except.bind]
  rfl

/-- No text is a written form of two messages. -/
theorem Message.unplaced_eq_of_written {m n : Message} {cs : List Char} (hm : m.WellFormed)
    (hn : n.WellFormed) (h : m.Written cs) (h' : n.Written cs) : m.unplaced = n.unplaced := by
  obtain ⟨m', hscan, hm'⟩ := scan_of_written h hm
  obtain ⟨n', hscan', hn'⟩ := scan_of_written h' hn
  have hsame : m' = n' := by
    rw [hscan] at hscan'
    exact Except.ok.inj hscan'
  rw [← hm', ← hn', hsame]

/-- Parsing undoes writing: a well-formed message has a written form, and parsing any written
form of it gives the message, up to spans. -/
theorem Message.parse_written (m : Message) (hm : m.WellFormed) :
    (∃ cs, m.Written cs) ∧
      ∀ cs, m.Written cs →
        ∃ m', parse (String.ofList cs) = .ok m' ∧ m'.unplaced = m.unplaced := by
  refine ⟨hm.exists_written, fun cs hcs => ?_⟩
  obtain ⟨m', hscan, hm'⟩ := scan_of_written hcs hm
  refine ⟨m', ?_, hm'⟩
  unfold parse
  rw [hscan]
  change (m'.validate >>= fun _ => Except.ok m') = _
  rw [validate_of_unplaced hm hm']
  rfl

/-- A message with an option that is a bar, and a text that is a closing brace. -/
def barsAndBraces : Message where
  declarations :=
    [⟨.input, "n", ⟨some (.variable "n"), some ⟨"x:y", [⟨"a", .literal "|"⟩]⟩, .nowhere⟩⟩]
  body := .choice ⟨["n"],
    [⟨[.catchAll], [.text "\x7d", .markup ⟨.standalone, "b", [], .nowhere⟩], .nowhere⟩], .nowhere⟩

/-- Its source, with no blanks but those that must be there. -/
def barsAndBracesSource : String :=
  ".input\x7b$n :x:y a=|\\||@c\x7d.match $n *\x7b\x7b\\\x7d\x7b#b/\x7d\x7d\x7d"

theorem isName_singleton {c : Char} (h : isNameStart c = true) : IsName (String.ofList [c]) :=
  ⟨c, [], String.toList_ofList, h, fun _ hd => by cases hd⟩

theorem barsAndBraces_wellFormed : barsAndBraces.WellFormed := by
  have hn : IsName "n" := isName_singleton (c := 'n') rfl
  have ha : IsName "a" := isName_singleton (c := 'a') rfl
  have hb : IsName "b" := isName_singleton (c := 'b') rfl
  have hx : IsName "x" := isName_singleton (c := 'x') rfl
  have hy : IsName "y" := isName_singleton (c := 'y') rfl
  have hoptions : OptionsWellFormed [⟨"a", .literal "|"⟩] :=
    ⟨by simpa using .inl ha, by simp [Operand.WellFormed], by simp⟩
  have hcall : Expression.WellFormed
      ⟨some (.variable "n"), some ⟨"x:y", [⟨"a", .literal "|"⟩]⟩, .nowhere⟩ := by
    refine ⟨?_, ?_, .inl rfl⟩
    · rintro o ⟨⟩
      exact hn
    · rintro f ⟨⟩
      exact ⟨.inr ⟨"x", "y", hx, hy, rfl⟩, hoptions⟩
  have hpattern : PatternWellFormed [.text "\x7d", .markup ⟨.standalone, "b", [], .nowhere⟩] := by
    refine ⟨?_, fun h => h.2, trivial⟩
    intro item hitem
    simp only [List.mem_cons, List.not_mem_nil, or_false] at hitem
    rcases hitem with rfl | rfl
    · simp [PatternItem.WellFormed]
    · exact ⟨.inl hb, by simp, by simp, by simp⟩
  refine ⟨?_, by simp [barsAndBraces], ?_⟩
  · simpa [barsAndBraces] using ⟨hn, hcall, fun _ => rfl⟩
  · exact ⟨by simp, by simpa using hn, by simp, by simpa using hpattern, by simp⟩

theorem barsAndBraces_written : barsAndBraces.Written barsAndBracesSource.toList := by
  have hspace : [' '] ≠ ([] : List Char) := List.cons_ne_nil _ _
  have hbar : Escaped PlainInBars "|".toList ['\\', '|'] := .escaped (c := '|') rfl .nil
  have hbrace : Escaped PlainInText "\x7d".toList ['\\', '\x7d'] := .escaped (c := '\x7d') rfl .nil
  have hoption := OptionWritten.mk (o := ⟨"a", .literal "|"⟩) blanks_space hspace blanks_nil
    blanks_nil (.literal (.bars hbar))
  have hcall := CallWritten.both (f := ⟨"x:y", [⟨"a", .literal "|"⟩]⟩)
    (@OperandWritten.sigil isLiteralStart "n") blanks_space hspace (.mk (.cons hoption .nil))
  have hc : IsIdentifier "c" := .inl (isName_singleton (c := 'c') rfl)
  have hending : EndingWritten _ := .mk (.cons (.bare blanks_nil hc) .nil) blanks_nil
  have hexpression := ExpressionWritten.mk
    (e := ⟨some (.variable "n"), some ⟨"x:y", [⟨"a", .literal "|"⟩]⟩, .nowhere⟩)
    blanks_nil hcall hending
  have hdeclaration : DeclarationWritten ⟨.input, "n", _⟩ _ :=
    .input blanks_nil blanks_nil hexpression
  have hmarkup := MarkupWritten.mk (m := ⟨.standalone, "b", [], .nowhere⟩) blanks_nil .nil
    endingWritten_nil
  have hquoted := QuotedWritten.mk (.cons (.text hbrace) (.cons (.markup hmarkup) .nil))
  have hvariant := VariantWritten.mk (v := ⟨[.catchAll], _, .nowhere⟩)
    (.cons (.mk blanks_space hspace .catchAll) .nil) blanks_nil hquoted
  have hbody := BodyWritten.choice (m := ⟨["n"], [_], .nowhere⟩)
    (.cons (.mk blanks_space hspace) .nil) (.cons hvariant .nil)
  have hmessage := Message.Written.complex (m := barsAndBraces) (.cons hdeclaration .nil) blanks_nil
    hbody blanks_nil
  exact hmessage

theorem Message.parse_written_barsAndBraces :
    barsAndBraces.WellFormed ∧
      ∃ m', parse barsAndBracesSource = .ok m' ∧ m'.unplaced = barsAndBraces.unplaced := by
  refine ⟨barsAndBraces_wellFormed, ?_⟩
  have hparse := (parse_written barsAndBraces barsAndBraces_wellFormed).2 _ barsAndBraces_written
  rwa [String.ofList_toList] at hparse

end Phrasebook
