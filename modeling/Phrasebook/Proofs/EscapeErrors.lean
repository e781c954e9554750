import Phrasebook.Proofs.Runs
import Phrasebook.Proofs.Tiling

/-!
Where invalid escapes are reported.

`Lexing` follows the characters of a source, to tell where its text is and what is between bars:
the braces that are open, whether a literal is, and whether a backslash came last. All scanners keep
it in step with what they read (`Scanner.Lexes`), and an error over an escape comes from where it
says that there is text or a literal. Main statement: `Message.escape_errors_placed`, for every
source.
-/

namespace Phrasebook

/-! ## Texts and literals -/

/-- The braces that are open, whether a literal between bars is, and whether a backslash came
last. -/
structure Lexing where
  depth : Nat
  barred : Bool
  escaped : Bool
  deriving DecidableEq, Repr

namespace Lexing

/-- Neither a literal nor an escape is open. -/
def plain (depth : Nat) : Lexing := ⟨depth, false, false⟩

/-- In a literal between bars. -/
def literal (depth : Nat) : Lexing := ⟨depth, true, false⟩

/-- One more character. The text of a message stands at a depth of its own, where bars open
nothing. -/
def next (textDepth : Nat) (l : Lexing) (c : Char) : Lexing :=
  if l.escaped then { l with escaped := false }
  else if c = '\\' then { l with escaped := true }
  else if c = '|' then { l with barred := !l.barred && l.depth != textDepth }
  else if l.barred then l
  else if c = '\x7b' then { l with depth := l.depth + 1 }
  else if c = '\x7d' then { l with depth := l.depth - 1 }
  else l

/-- Some more characters. -/
def past (textDepth : Nat) (l : Lexing) (cs : List Char) : Lexing := cs.foldl (next textDepth) l

variable {t n : Nat}

theorem past_append (l : Lexing) (cs ds : List Char) :
    l.past t (cs ++ ds) = (l.past t cs).past t ds := List.foldl_append

@[simp] theorem next_open : (plain n).next t '\x7b' = plain (n + 1) := rfl

@[simp] theorem next_close : (plain (n + 1)).next t '\x7d' = plain n := rfl

theorem next_bar (h : n ≠ t) : (plain n).next t '|' = literal n := by
  simp [next, plain, literal, h]

@[simp] theorem next_barred : (literal n).next t '|' = plain n := rfl

/-- What needs no backslash anywhere changes nothing. -/
theorem next_of_not_isEscapable {c : Char} (h : isEscapable c = false) :
    (plain n).next t c = plain n := by
  simp only [isEscapable, Bool.or_eq_false_iff, beq_eq_false_iff_ne] at h
  obtain ⟨⟨⟨hbackslash, hopen⟩, hclose⟩, hbar⟩ := h
  simp [next, plain, hbackslash, hbar, hopen, hclose]

theorem past_of_not_isEscapable {ws : List Char} (h : ∀ c ∈ ws, isEscapable c = false) :
    (plain n).past t ws = plain n := by
  induction ws with
  | nil => rfl
  | cons c ws ih =>
    obtain ⟨hc, hws⟩ := List.forall_mem_cons.mp h
    change ((plain n).next t c).past t ws = _
    rw [next_of_not_isEscapable hc, ih hws]

theorem next_of_plainInBars {c : Char} (h : PlainInBars c) :
    (literal n).next t c = literal n := by
  simp [next, literal, h.1, h.2]

theorem next_of_plainInText {c : Char} (h : PlainInText c) : (plain t).next t c = plain t := by
  simp [next, plain, h.1, h.2.1, h.2.2]

/-- A literal does not end before its bar. -/
theorem past_of_escaped_bars {cs ws : List Char} (h : Escaped PlainInBars cs ws) :
    (literal n).past t ws = literal n := by
  induction h with
  | nil => rfl
  | @plain c cs ws hc _ ih =>
    change ((literal n).next t c).past t ws = _
    rw [next_of_plainInBars hc, ih]
  | escaped _ _ ih => exact ih

/-- A text stays where it is. -/
theorem past_of_escaped_text {cs ws : List Char} (h : Escaped PlainInText cs ws) :
    (plain t).past t ws = plain t := by
  induction h with
  | nil => rfl
  | @plain c cs ws hc _ ih =>
    change ((Lexing.plain t).next t c).past t ws = _
    rw [next_of_plainInText hc, ih]
  | escaped _ _ ih => exact ih

theorem past_of_literal {cs ws : List Char} (h : Escaped PlainInBars cs ws) (hn : n ≠ t) :
    (plain n).past t ('|' :: (ws ++ ['|'])) = plain n := by
  change ((plain n).next t '|').past t (ws ++ ['|']) = _
  rw [next_bar hn, past_append, past_of_escaped_bars h]
  rfl

end Lexing

/-- At a backslash that escapes nothing. In a text, the error is at the next character; in a
literal, it is at the character after that. -/
structure BadEscape (textDepth : Nat) (l : Lexing) (c : Cursor) (e : SyntaxError) : Prop where
  backslash : c.rest.head? = some '\\'
  escapes : ∀ x ∈ c.rest.tail.head?, isEscapable x = false
  place : l = .plain textDepth ∧ e.span = (c.skip 1).here ∨
    (∃ n, l = .literal n) ∧ e.span = (c.skip 2).here

namespace Scanner

variable {α β : Type} {t k m n : Nat} {c : Cursor} {s : Scanner α} {g : α → Scanner β}

/-! ## Scanners in step -/

/-- An error over an escape comes from a backslash right after these characters. -/
def EscapeAt (t m : Nat) (e : SyntaxError) (ws : List Char) (d : Cursor) : Prop :=
  e.fault = .invalidEscape → BadEscape t ((Lexing.plain m).past t ws) d e

/-- The scanner passes over characters that lead from one depth to another, and if it fails over an
escape, then where a text or a literal is. -/
abbrev Lexes (t m n : Nat) (s : Scanner α) (c : Cursor) : Prop :=
  Runs s c (fun _ ws _ => (Lexing.plain m).past t ws = .plain n) (EscapeAt t m)

theorem Lexes.bind {T : α → Cursor → Prop} (hs : Lexes t k m s c) (hT : Ensures s c T)
    (hg : ∀ a d, T a d → Lexes t m n (g a) d) : Lexes t k n (s >>= g) c := by
  refine (hs.ensures hT).bind fun a ws d _ h => (hg a d h.2).imp ?_ ?_
  · intro b vs e _ hb
    rw [Lexing.past_append, h.1, hb]
  · intro e vs f hbad he
    rw [Lexing.past_append, h.1]
    exact hbad he

/-- A bind whose second scanner may start anywhere. -/
theorem Lexes.andThen (hs : Lexes t k m s c) (hg : ∀ a d, Lexes t m n (g a) d) :
    Lexes t k n (s >>= g) c :=
  hs.bind (T := fun _ _ => True) (fun _ _ _ => trivial) fun a d _ => hg a d

/-- Other faults say nothing about escapes. -/
theorem escapeAt_of_ne {fault : SyntaxFault} {span : Span} {ws : List Char}
    (h : fault ≠ .invalidEscape) : EscapeAt t m ⟨fault, span⟩ ws c := fun he => absurd he h

theorem lexes_fail {fault : SyntaxFault} (h : fault ≠ .invalidEscape) :
    Lexes t m n (fail fault : Scanner α) c := runs_fail (escapeAt_of_ne h)

theorem Lexes.guard {b : Prop} [Decidable b] {fault : SyntaxFault} {rest : PUnit → Scanner β}
    (hfault : fault ≠ .invalidEscape) (h : ¬ b → Lexes t m n (rest ⟨⟩) c) :
    Lexes t m n (if b then fail fault >>= rest else rest ⟨⟩) c :=
  Runs.guard (fun _ => escapeAt_of_ne hfault) h

theorem lexes_collect {step : List α → Scanner (Option α)}
    (hstep : ∀ found d, Lexes t n n (step found) d) : Lexes t n n (collect step) c := by
  refine runs_collect (I := fun _ us _ => (Lexing.plain n).past t us = .plain n) ?_
    (fun _ _ _ h => h) rfl
  intro found us d _ hus
  refine (hstep found d).imp ?_ ?_
  · intro a? ws e _ hws
    have hboth : (Lexing.plain n).past t (us ++ ws) = .plain n := by
      rw [Lexing.past_append, hus, hws]
    cases a? with
    | none => exact hboth
    | some a => exact hboth
  · intro e ws f hbad he
    rw [Lexing.past_append, hus]
    exact hbad he

/-! ## Characters -/

theorem isEscapable_eq_false_of_isLiteralChar {x : Char} (h : isLiteralChar x = true) :
    isEscapable x = false := by
  rw [Bool.eq_false_iff]
  intro hx
  simp only [isEscapable, Bool.or_eq_true, beq_iff_eq] at hx
  rcases hx with ((rfl | rfl) | rfl) | rfl <;> exact absurd h (by decide)

theorem isEscapable_eq_false_of_isBlank {x : Char} (h : isBlank x = true) :
    isEscapable x = false := by
  rw [Bool.eq_false_iff]
  intro hx
  simp only [isEscapable, Bool.or_eq_true, beq_iff_eq] at hx
  rcases hx with ((rfl | rfl) | rfl) | rfl <;> exact absurd h (by decide)

theorem lexes_set {ws : List Char} {d : Cursor} (hd : c.Passes ws d)
    (h : (Lexing.plain m).past t ws = .plain n) : Lexes t m n (set d) c := runs_set hd h

theorem lexes_skip_leading {ws : List Char} (hws : ws <+: c.rest)
    (h : (Lexing.plain m).past t ws = .plain n) : Lexes t m n (skip ws.length) c :=
  (runs_skip_leading hws).imp_passes fun _ _ _ _ heq => heq ▸ h

theorem lexes_skip_of_head? {x : Char} (h : c.rest.head? = some x)
    (hx : (Lexing.plain m).next t x = .plain n) : Lexes t m n (skip 1) c :=
  (runs_skip_of_head? h).imp_passes fun _ _ _ _ heq => heq ▸ hx

/-- Blanks may be skipped anywhere. -/
theorem lexes_set_skipWhile {p : Char → Bool} (hp : ∀ x, p x = true → isEscapable x = false) :
    Lexes t n n (set (c.skipWhile p)) c := by
  refine (runs_skipWhile p).imp_passes fun _ ws _ _ hws => ?_
  exact Lexing.past_of_not_isEscapable fun x hx => hp x (hws.2.2.1 x hx)

theorem lexes_skipBlanks : Lexes t n n skipBlanks c :=
  Runs.get ((lexes_set_skipWhile fun _ => isEscapable_eq_false_of_isBlank).andThen
    fun _ _ => .pure rfl)

theorem lexes_takeWhile {p : Char → Bool} (hp : ∀ x, p x = true → isEscapable x = false) :
    Lexes t n n (takeWhile p) c :=
  Runs.get ((lexes_set_skipWhile hp).andThen fun _ _ => .pure rfl)

theorem lexes_expect {x : Char} (hx : (Lexing.plain m).next t x = .plain n) :
    Lexes t m n (expect x) c := by
  unfold expect
  refine Runs.peek ?_
  split
  · next h => exact lexes_skip_of_head? h hx
  · exact lexes_fail (by simp)

/-! ## Names and literals -/

theorem lexes_name : Lexes t n n name c := by
  unfold name
  refine Runs.peek ?_
  split
  · exact lexes_fail (by simp)
  · split
    · exact lexes_takeWhile fun x hx =>
        isEscapable_eq_false_of_isLiteralChar (isLiteralChar_of_isNameChar hx)
    · exact lexes_fail (by simp)

theorem lexes_identifier : Lexes t n n identifier c := by
  unfold identifier
  refine lexes_name.andThen fun first d => Runs.get ?_
  split
  · next x rest hrest =>
    split
    · have hcolon : d.rest.head? = some ':' := by rw [hrest]; rfl
      refine (lexes_skip_of_head? hcolon rfl).andThen fun _ _ => lexes_name.andThen fun _ _ => ?_
      exact .pure rfl
    · exact .pure rfl
  · exact .pure rfl

/-- In a literal, an escape is read with its character before it is found to be wrong. -/
theorem escapes_of_quoted {cs : List Char} {p : Position} {e : SyntaxError}
    (h : quoted cs p = .error e) :
    ∃ ws d, Cursor.Passes ⟨cs, p⟩ ws d ∧
      (e.fault = .invalidEscape → BadEscape t ((Lexing.literal n).past t ws) d e) := by
  fun_induction quoted cs p with
  | case1 p =>
    cases h
    exact ⟨[], _, .refl _, fun he => by cases he⟩
  | case2 rest p => cases h
  | case3 p =>
    cases h
    exact ⟨[], _, .refl _, fun _ => ⟨rfl, by simp, .inr ⟨⟨n, rfl⟩, rfl⟩⟩⟩
  | case4 x rest p q hx =>
    rename_i ih
    rcases Outcome.bind_eq_error h with hrest | ⟨_, -, h⟩
    · obtain ⟨ws, d, hws, hbad⟩ := ih hrest
      exact ⟨'\\' :: x :: ws, d, hws.cons.cons, hbad⟩
    · cases h
  | case5 x rest p q hx =>
    cases h
    exact ⟨[], _, .refl _, fun _ => ⟨rfl, by simpa using hx, .inr ⟨⟨n, rfl⟩, rfl⟩⟩⟩
  | case6 x rest p hbar hlone hpair ih =>
    rcases Outcome.bind_eq_error h with hrest | ⟨_, -, h⟩
    · obtain ⟨ws, d, hws, hbad⟩ := ih hrest
      have hnext := Lexing.next_of_plainInBars (t := t) (n := n)
        ⟨hbar, ne_of_unmatched hlone hpair⟩
      refine ⟨x :: ws, d, hws.cons, ?_⟩
      change _ → BadEscape t (((Lexing.literal n).next t x).past t ws) d e
      rwa [hnext]
    · cases h

theorem lexes_literal (hn : n ≠ t) : Lexes t n n literal c := by
  unfold literal
  refine Runs.get ?_
  split
  · next rest hrest =>
    obtain ⟨_, p⟩ := c
    cases hrest
    have hbar : Cursor.Passes ⟨'|' :: rest, p⟩ ['|'] ⟨rest, p.advance '|'⟩ :=
      (Cursor.Passes.refl _).cons
    have hopen : (Lexing.plain n).past t ['|'] = .literal n := Lexing.next_bar hn
    refine Runs.lift (fun e hrun => ?_) ?_
    · obtain ⟨ws, d, hws, hbad⟩ := escapes_of_quoted (t := t) (n := n) hrun
      refine ⟨['|'] ++ ws, d, hbar.trans hws, fun he => ?_⟩
      rw [Lexing.past_append, hopen]
      exact hbad he
    · rintro ⟨run, d⟩ hrun
      obtain ⟨ws, hws, hpasses⟩ := passes_of_quoted hrun
      exact (lexes_set (hbar.trans hpasses) (Lexing.past_of_literal hws hn)).andThen fun _ _ =>
        .pure rfl
  · refine (lexes_takeWhile fun x hx => isEscapable_eq_false_of_isLiteralChar hx).andThen ?_
    intro text d
    split
    · exact lexes_fail (by simp)
    · exact .pure rfl

/-! ## Placeholders -/

theorem lexes_optionValue (hn : n ≠ t) : Lexes t n n optionValue c := by
  unfold optionValue
  refine Runs.peek ?_
  split
  · next h =>
    exact (lexes_skip_of_head? h rfl).andThen fun _ _ => lexes_name.andThen fun _ _ => .pure rfl
  · exact (lexes_literal hn).andThen fun _ _ => .pure rfl

theorem lexes_option? (hn : n ≠ t) (found : List OptionEntry) :
    Lexes t n n (option? found) c := by
  unfold option?
  refine Runs.get (Runs.get ?_)
  dsimp only
  split
  · refine (lexes_set_skipWhile fun _ => isEscapable_eq_false_of_isBlank).andThen fun _ _ => ?_
    refine lexes_identifier.andThen fun name d => ?_
    split
    · exact Runs.spanFrom (Runs.stop (runs_failAt (escapeAt_of_ne (by simp))))
    · refine lexes_skipBlanks.andThen fun _ _ => (lexes_expect rfl).andThen fun _ _ => ?_
      refine lexes_skipBlanks.andThen fun _ _ => (lexes_optionValue hn).andThen fun _ _ => ?_
      exact .pure rfl
  · exact .pure rfl

theorem lexes_options (hn : n ≠ t) : Lexes t n n options c :=
  lexes_collect fun found _ => lexes_option? hn found

/-- Past blanks and one character more. -/
theorem lexes_set_skip {x : Char} (h : (c.skipWhile isBlank).rest.head? = some x)
    (hx : isEscapable x = false) : Lexes t n n (set ((c.skipWhile isBlank).skip 1)) c := by
  refine (runs_skipWhile_skip h).imp_passes ?_
  rintro _ _ _ - ⟨b, rfl, hb⟩
  refine Lexing.past_of_not_isEscapable (List.forall_mem_append.mpr ⟨fun y hy => ?_, by simpa⟩)
  exact isEscapable_eq_false_of_isBlank (hb y hy)

theorem lexes_attributeValue (hn : n ≠ t) : Lexes t n n attributeValue c := by
  unfold attributeValue
  refine Runs.get ?_
  dsimp only
  split
  · next h =>
    refine (lexes_set_skip h rfl).andThen fun _ _ => lexes_skipBlanks.andThen fun _ _ => ?_
    exact (lexes_literal hn).andThen fun _ _ => .pure rfl
  · exact .pure rfl

theorem lexes_attribute? (hn : n ≠ t) : Lexes t n n attribute? c := by
  unfold attribute?
  refine Runs.get ?_
  dsimp only
  split
  · next h =>
    refine (lexes_set_skip h rfl).andThen fun _ _ => lexes_identifier.andThen fun _ _ => ?_
    exact (lexes_attributeValue hn).andThen fun _ _ => .pure rfl
  · exact .pure rfl

theorem lexes_attributes (hn : n ≠ t) : Lexes t n n attributes c :=
  (lexes_collect fun _ _ => lexes_attribute? hn).andThen fun _ _ => .pure rfl

theorem lexes_closingBrace : Lexes t (n + 1) n closingBrace c := by
  unfold closingBrace
  refine Runs.peek ?_
  split
  · next h => exact lexes_skip_of_head? h rfl
  · exact lexes_fail (by simp)
  · exact lexes_fail (by simp)

theorem lexes_markupKind (hn : n ≠ t) : Lexes t n n markupKind c := by
  unfold markupKind
  refine (lexes_attributes hn).andThen fun _ _ => lexes_skipBlanks.andThen fun _ _ => ?_
  refine Runs.peek ?_
  split
  · next h => exact (lexes_skip_of_head? h rfl).andThen fun _ _ => .pure rfl
  · exact .pure rfl

theorem lexes_openingMarkup (hn : n + 1 ≠ t) (start : Position) (h : c.rest.head? = some '#') :
    Lexes t (n + 1) n (openingMarkup start) c := by
  unfold openingMarkup
  refine (lexes_skip_of_head? h rfl).andThen fun _ _ => lexes_identifier.andThen fun _ _ => ?_
  refine (lexes_options hn).andThen fun _ _ => (lexes_markupKind hn).andThen fun _ _ => ?_
  exact lexes_closingBrace.andThen fun _ _ => Runs.spanFrom (.pure rfl)

theorem lexes_closingMarkup (hn : n + 1 ≠ t) (start : Position) (h : c.rest.head? = some '/') :
    Lexes t (n + 1) n (closingMarkup start) c := by
  unfold closingMarkup
  refine (lexes_skip_of_head? h rfl).andThen fun _ _ => lexes_identifier.andThen fun _ _ => ?_
  refine (lexes_options hn).andThen fun _ _ => (lexes_attributes hn).andThen fun _ _ => ?_
  refine lexes_skipBlanks.andThen fun _ _ => lexes_closingBrace.andThen fun _ _ => ?_
  exact Runs.spanFrom (.pure rfl)

theorem lexes_operand? (hn : n ≠ t) : Lexes t n n operand? c := by
  unfold operand?
  refine Runs.peek ?_
  split
  · exact lexes_fail (by simp)
  · next h =>
    exact (lexes_skip_of_head? h rfl).andThen fun _ _ => lexes_name.andThen fun _ _ => .pure rfl
  · exact .pure rfl
  · split
    · exact (lexes_literal hn).andThen fun _ _ => .pure rfl
    · exact lexes_fail (by simp)

theorem lexes_functionUse? (hn : n ≠ t) (afterOperand : Bool) :
    Lexes t n n (functionUse? afterOperand) c := by
  have hcall {d : Cursor} (h : d.rest.head? = some ':') :
      Lexes t n n (do skip 1; let f ← identifier; return some (FunctionUse.mk f (← options))) d :=
    (lexes_skip_of_head? h rfl).andThen fun _ _ => lexes_identifier.andThen fun _ _ =>
      (lexes_options hn).andThen fun _ _ => .pure rfl
  unfold functionUse?
  cases afterOperand with
  | true =>
    refine lexes_skipBlanks.andThen fun _ _ => Runs.peek ?_
    split
    · next h => exact Lexes.guard (by simp) fun _ => hcall h
    · exact .pure rfl
  | false =>
    refine Lexes.andThen (m := n) (.pure rfl) fun _ _ => Runs.peek ?_
    split
    · next h => exact Lexes.guard (by simp) fun _ => hcall h
    · exact .pure rfl

theorem lexes_expressionBody (hn : n + 1 ≠ t) (start : Position) :
    Lexes t (n + 1) n (expressionBody start) c := by
  unfold expressionBody
  refine (lexes_operand? hn).andThen fun _ _ => (lexes_functionUse? hn _).andThen fun _ _ => ?_
  refine (lexes_attributes hn).andThen fun _ _ => lexes_skipBlanks.andThen fun _ _ => ?_
  exact lexes_closingBrace.andThen fun _ _ => Runs.spanFrom (.pure rfl)

theorem lexes_placeholder (hn : n + 1 ≠ t) : Lexes t n n placeholder c := by
  unfold placeholder
  refine Runs.position ((lexes_expect rfl).andThen fun _ _ => lexes_skipBlanks.andThen ?_)
  refine fun _ _ => Runs.peek ?_
  split
  · next h => exact (lexes_openingMarkup hn _ h).andThen fun _ _ => .pure rfl
  · next h => exact (lexes_closingMarkup hn _ h).andThen fun _ _ => .pure rfl
  · exact (lexes_expressionBody hn _).andThen fun _ _ => .pure rfl

theorem lexes_expression (hn : n + 1 ≠ t) : Lexes t n n expression c := by
  unfold expression
  refine Runs.position ((lexes_expect rfl).andThen fun _ _ => lexes_skipBlanks.andThen ?_)
  refine fun _ _ => Runs.peek ?_
  split
  · exact lexes_fail (by simp)
  · exact lexes_fail (by simp)
  · exact lexes_expressionBody hn _

/-! ## Patterns -/

/-- In a text, an escape is found to be wrong before its character is read. -/
theorem escapes_of_textRun {quotedPattern : Bool} {cs : List Char} {p : Position}
    {e : SyntaxError} (h : textRun quotedPattern cs p = .error e) :
    ∃ ws d, Cursor.Passes ⟨cs, p⟩ ws d ∧ EscapeAt t t e ws d := by
  fun_induction textRun quotedPattern cs p with
  | case1 p => cases h
  | case2 p =>
    cases h
    exact ⟨[], _, .refl _, fun _ => ⟨rfl, by simp, .inl ⟨rfl, rfl⟩⟩⟩
  | case3 x rest p q hx =>
    rename_i ih
    rcases Outcome.bind_eq_error h with hrest | ⟨_, -, h⟩
    · obtain ⟨ws, d, hws, hbad⟩ := ih hrest
      exact ⟨'\\' :: x :: ws, d, hws.cons.cons, hbad⟩
    · cases h
  | case4 x rest p q hx =>
    cases h
    exact ⟨[], _, .refl _, fun _ => ⟨rfl, by simpa using hx, .inl ⟨rfl, rfl⟩⟩⟩
  | case5 rest p => cases h
  | case6 rest p hend => cases h
  | case7 rest p hend =>
    cases h
    exact ⟨[], _, .refl _, escapeAt_of_ne (by simp)⟩
  | case8 x rest p hlone hpair hopen hclose ih =>
    rcases Outcome.bind_eq_error h with hrest | ⟨_, -, h⟩
    · obtain ⟨ws, d, hws, hbad⟩ := ih hrest
      have hnext := Lexing.next_of_plainInText (t := t)
        ⟨hopen, hclose, ne_of_unmatched hlone hpair⟩
      refine ⟨x :: ws, d, hws.cons, ?_⟩
      change _ → BadEscape t (((Lexing.plain t).next t x).past t ws) d e
      rwa [hnext]
    · cases h

theorem lexes_item? (quotedPattern : Bool) : Lexes t t t (item? quotedPattern) c := by
  unfold item?
  refine Runs.get (Runs.lift (fun e hrun => escapes_of_textRun hrun) ?_)
  rintro ⟨run, d⟩ hrun
  obtain ⟨ws, hws, hpasses⟩ := passes_of_textRun hrun
  dsimp only
  split
  · exact (lexes_set hpasses (Lexing.past_of_escaped_text hws)).andThen fun _ _ => .pure rfl
  · split
    · exact (lexes_placeholder t.succ_ne_self).andThen fun _ _ => .pure rfl
    · exact .pure rfl

theorem lexes_pattern (quotedPattern : Bool) : Lexes t t t (pattern quotedPattern) c := by
  unfold pattern
  refine (lexes_collect fun _ _ => lexes_item? quotedPattern).andThen fun _ _ => Runs.peek ?_
  exact Lexes.guard (by simp) fun _ => .pure rfl

/-- The text of a message with a body in braces stands two braces deep. -/
theorem lexes_quotedPattern : Lexes 2 0 0 quotedPattern c := by
  unfold quotedPattern
  refine Runs.startsWith (Lexes.guard (by simp) fun hopen => ?_)
  have hbraces : ['\x7b', '\x7b'] <+: c.rest := by simpa using hopen
  refine (lexes_skip_leading hbraces rfl).andThen fun _ _ => ?_
  refine Lexes.bind (lexes_pattern true) (ensures_pattern true _) fun items d hend => ?_
  exact (lexes_skip_leading hend.braces rfl).andThen fun _ _ => .pure rfl

/-! ## Messages -/

theorem lexes_keyword? {word : String} (h : ('.' :: word.toList).any isEscapable = false) :
    Lexes t n n (keyword? word) c := by
  refine (runs_keyword? word).imp_passes ?_
  rintro (_ | _) ws d - ⟨hfound, hnone⟩
  · cases hnone rfl
    rfl
  · obtain ⟨rfl, -⟩ := hfound rfl
    refine Lexing.past_of_not_isEscapable fun x hx => ?_
    simpa using List.any_eq_false.mp h x hx

theorem lexes_inputDeclaration : Lexes 2 0 0 inputDeclaration c := by
  unfold inputDeclaration
  refine lexes_skipBlanks.andThen fun _ _ => (lexes_expression (by decide)).andThen fun e _ => ?_
  split
  · exact .pure rfl
  · exact runs_failAt (escapeAt_of_ne (by simp))

theorem lexes_bindingDeclaration : Lexes 2 0 0 bindingDeclaration c := by
  unfold bindingDeclaration
  refine lexes_skipBlanks.andThen fun _ _ => Lexes.guard (by simp) fun _ => ?_
  refine (lexes_expect rfl).andThen fun _ _ => lexes_name.andThen fun _ _ => ?_
  refine lexes_skipBlanks.andThen fun _ _ => (lexes_expect rfl).andThen fun _ _ => ?_
  refine lexes_skipBlanks.andThen fun _ _ => (lexes_expression (by decide)).andThen fun _ _ => ?_
  exact .pure rfl

theorem lexes_declaration? : Lexes 2 0 0 declaration? c := by
  unfold declaration?
  refine lexes_skipBlanks.andThen fun _ _ => (lexes_keyword? rfl).andThen fun _ _ => ?_
  split
  · exact lexes_inputDeclaration.andThen fun _ _ => .pure rfl
  · refine (lexes_keyword? rfl).andThen fun _ _ => ?_
    split
    · exact lexes_bindingDeclaration.andThen fun _ _ => .pure rfl
    · exact .pure rfl

theorem lexes_selector? : Lexes 2 0 0 selector? c := by
  unfold selector?
  refine lexes_skipBlanks.andThen fun _ _ => Runs.peek ?_
  split
  · next h =>
    refine Lexes.guard (by simp) fun _ => (lexes_skip_of_head? h rfl).andThen fun _ _ => ?_
    exact lexes_name.andThen fun _ _ => .pure rfl
  · exact .pure rfl

theorem lexes_key? : Lexes 2 0 0 key? c := by
  unfold key?
  refine Runs.peek ?_
  split
  · next h =>
    refine (lexes_skip_of_head? h rfl).andThen fun _ _ => lexes_skipBlanks.andThen fun _ _ => ?_
    exact .pure rfl
  · split
    · refine (lexes_literal (by decide)).andThen fun _ _ => lexes_skipBlanks.andThen fun _ _ => ?_
      exact .pure rfl
    · exact .pure rfl
  · exact .pure rfl

theorem lexes_variant? : Lexes 2 0 0 variant? c := by
  unfold variant?
  refine lexes_skipBlanks.andThen fun _ _ => Runs.peek ?_
  split
  · exact .pure rfl
  · refine Runs.position ((lexes_collect fun _ _ => lexes_key?).andThen fun _ _ => ?_)
    refine Lexes.guard (by simp) fun _ => lexes_quotedPattern.andThen fun _ _ => ?_
    exact Runs.spanFrom (.pure rfl)

theorem lexes_matcher : Lexes 2 0 0 matcher c := by
  unfold matcher
  refine Runs.position ((lexes_collect fun _ _ => lexes_selector?).andThen fun _ _ => ?_)
  refine Lexes.guard (by simp) fun _ => (lexes_collect fun _ _ => lexes_variant?).andThen ?_
  exact fun _ _ => Lexes.guard (by simp) fun _ => Runs.spanFrom (.pure rfl)

theorem lexes_body : Lexes 2 0 0 body c := by
  unfold body
  refine (lexes_keyword? rfl).andThen fun _ d => ?_
  split
  · exact lexes_matcher.andThen fun _ _ => .pure rfl
  · refine Runs.startsWith ?_
    split
    · exact lexes_quotedPattern.andThen fun _ _ => .pure rfl
    · refine Runs.peek ?_
      split
      · exact lexes_fail (by simp)
      · exact lexes_fail (by simp)

theorem lexes_complexMessage : Lexes 2 0 0 complexMessage c := by
  unfold complexMessage
  refine (lexes_collect fun _ _ => lexes_declaration?).andThen fun _ _ => ?_
  refine lexes_body.andThen fun _ _ => lexes_skipBlanks.andThen fun _ _ => Runs.peek ?_
  exact Lexes.guard (by simp) fun _ => .pure rfl

/-- The text of a simple message stands in no braces. -/
theorem lexes_simpleMessage : Lexes 0 0 0 simpleMessage c := by
  unfold simpleMessage
  exact (lexes_pattern false).andThen fun _ _ => .pure rfl

end Scanner

/-! ## Main statement -/

/-- How deep the text of a message stands in braces. -/
def Message.textDepth (source : String) : Nat := if isComplex source.toList then 2 else 0

/-- Where a source is after some of its characters. -/
def Message.lexing (source : String) (before : List Char) : Lexing :=
  (Lexing.plain 0).past (textDepth source) before

/-- The span of the first of the characters that come after others; it is empty where none
does. -/
def spanAfter (before after : List Char) : Span :=
  (Cursor.mk after (Position.start.advanceOver before)).here

/-- A backslash before no character that it may stand before is in a text, and the error is at the
character after it, or in a literal between bars, and the error is one character further. -/
def Message.EscapeReported (source : String) (e : SyntaxError) : Prop :=
  ∃ before after, source.toList = before ++ '\\' :: after ∧
    (∀ c ∈ after.head?, isEscapable c = false) ∧
      (lexing source before = .plain (textDepth source) ∧
          e.span = spanAfter (before ++ ['\\']) after ∨
        (∃ n, lexing source before = .literal n) ∧
          e.span = spanAfter (before ++ '\\' :: after.take 1) (after.drop 1))

theorem Message.lexes_scanner (source : String) :
    Scanner.Lexes (textDepth source) 0 0 (if isComplex source.toList then Scanner.complexMessage
      else Scanner.simpleMessage) (.ofText source.toList) := by
  unfold textDepth
  split
  · exact Scanner.lexes_complexMessage
  · exact Scanner.lexes_simpleMessage

/-- The last checks look at no escapes. -/
theorem Message.fault_ne_of_validate {m : Message} {e : SyntaxError} (h : m.validate = .error e) :
    e.fault ≠ .invalidEscape := by
  unfold validate at h
  split at h
  · cases h
    simp
  · split at h
    · cases h
    · split at h
      · next e' he =>
        cases h
        unfold Matcher.fault? at he
        split at he
        · cases he
          simp
        · split at he
          · cases he
          · cases he
            simp
      · cases h

/-- An invalid escape in a text is reported at the character after the backslash, or at the end of
the source where there is none. Between bars it is reported at the character after that, so the two
agree only where the backslash is last. -/
theorem Message.escape_errors_placed (source : String) (e : SyntaxError)
    (h : parse source = .error e) (hfault : e.fault = .invalidEscape) :
    EscapeReported source e := by
  rcases Outcome.bind_eq_error h with hscan | ⟨m, -, h⟩
  · rcases Outcome.bind_eq_error hscan with hrun | ⟨_, _, h⟩
    · obtain ⟨before, d, hpasses, hbad⟩ := (lexes_scanner source).fails e hrun
      obtain ⟨hbackslash, hescapes, hplace⟩ := hbad hfault
      obtain ⟨after, hrest⟩ := List.head?_eq_some_iff.mp hbackslash
      obtain ⟨rest, p⟩ := d
      obtain ⟨hsource, rfl⟩ := hpasses
      subst hrest
      refine ⟨before, after, hsource, hescapes, hplace.imp ?_ ?_⟩
      · rintro ⟨hplain, hspan⟩
        refine ⟨hplain, hspan.trans ?_⟩
        rw [spanAfter, Position.advanceOver_append]
        rfl
      · rintro ⟨hliteral, hspan⟩
        refine ⟨hliteral, hspan.trans ?_⟩
        rw [spanAfter, Position.advanceOver_append]
        rfl
    · cases h
  · rcases Outcome.bind_eq_error h with hvalidate | ⟨_, _, h⟩
    · exact absurd hfault (fault_ne_of_validate hvalidate)
    · cases h

/-- In a text after a literal with a bar in it, and in a literal at the end of the source. -/
theorem Message.escape_errors_placed_accented :
    (parse "é\x7b|\\||\x7d\\ü" = .error ⟨.invalidEscape, ⟨9, 11, 1, 9⟩⟩ ∧
        EscapeReported "é\x7b|\\||\x7d\\ü" ⟨.invalidEscape, ⟨9, 11, 1, 9⟩⟩) ∧
      parse "\x7b|é\\" = .error ⟨.invalidEscape, ⟨5, 5, 1, 5⟩⟩ ∧
        EscapeReported "\x7b|é\\" ⟨.invalidEscape, ⟨5, 5, 1, 5⟩⟩ := by
  have htext : parse "é\x7b|\\||\x7d\\ü" = .error ⟨.invalidEscape, ⟨9, 11, 1, 9⟩⟩ := by
    decide +kernel
  have hliteral : parse "\x7b|é\\" = .error ⟨.invalidEscape, ⟨5, 5, 1, 5⟩⟩ := by decide +kernel
  exact ⟨⟨htext, escape_errors_placed _ _ htext rfl⟩, hliteral,
    escape_errors_placed _ _ hliteral rfl⟩

/-- The error over an escape in a literal is not at the character after the backslash. -/
theorem Message.escape_error_misplaced :
    parse "\x7b|\\q|\x7d" = .error ⟨.invalidEscape, ⟨4, 5, 1, 5⟩⟩ ∧
      ∀ before after, "\x7b|\\q|\x7d".toList = before ++ '\\' :: after →
        (⟨4, 5, 1, 5⟩ : Span) ≠ spanAfter (before ++ ['\\']) after := by
  refine ⟨by decide +kernel, fun before after hsource => ?_⟩
  rcases before with _ | ⟨_, _ | ⟨_, _ | ⟨_, before⟩⟩⟩
  · cases hsource
  · cases hsource
  · cases hsource
    decide
  · -- there is no other backslash
    have hrest : ['q', '|', '\x7d'] = before ++ '\\' :: after := by
      injection hsource with _ hsource
      injection hsource with _ hsource
      injection hsource
    have hmem : '\\' ∈ ['q', '|', '\x7d'] := by simp [hrest]
    exact absurd hmem (by decide)

end Phrasebook
