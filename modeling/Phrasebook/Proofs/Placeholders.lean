import Phrasebook.Proofs.Scanning

/-!
Scanners read the written forms of placeholders.

Each scanner for a piece of a placeholder reads every written form of that piece, whatever comes
after it, as long as that delimits the piece. Options and attributes are read until neither is
next; `Ended` says that of the text, and holds where the end of a placeholder is written.
-/

namespace Phrasebook

/-! ## First characters -/

theorem isBlank_eq_false_of_isNameStart {c : Char} (h : isNameStart c = true) :
    isBlank c = false :=
  isBlank_eq_false_of_isLiteralChar (isLiteralChar_of_isNameChar (isNameChar_of_isNameStart h))

theorem IsName.exists_cons {s : String} (h : IsName s) :
    ∃ c cs, s.toList = c :: cs ∧ isNameStart c = true := by
  obtain ⟨c, cs, hs, hc, -⟩ := h
  exact ⟨c, cs, hs, hc⟩

theorem IsIdentifier.exists_cons {s : String} (h : IsIdentifier s) :
    ∃ c cs, s.toList = c :: cs ∧ isNameStart c = true := by
  rcases h with h | ⟨space, local_, hspace, -, rfl⟩
  · exact h.exists_cons
  · obtain ⟨c, cs, hs, hc⟩ := hspace.exists_cons
    exact ⟨c, cs ++ ':' :: local_.toList, by simp [hs], hc⟩

theorem LiteralWritten.exists_cons {start : Char → Bool} {s : String} {ws : List Char}
    (h : LiteralWritten start s ws) :
    ∃ c cs, ws = c :: cs ∧ (c = '|' ∨ start c = true ∧ isLiteralChar c = true) := by
  cases h with
  | bars h => exact ⟨_, _, rfl, .inl rfl⟩
  | @bare c cs hs hc hall => exact ⟨c, cs, hs, .inr ⟨hc, hall c List.mem_cons_self⟩⟩

theorem LiteralWritten.head_ne {start : Char → Bool} {s : String} {c d : Char} {cs : List Char}
    (h : LiteralWritten start s (c :: cs)) (hd : d ≠ '|') (hd' : isLiteralChar d = false) :
    c ≠ d := by
  obtain ⟨_, _, heq, hc⟩ := h.exists_cons
  cases heq
  rintro rfl
  rcases hc with hc | ⟨-, hc⟩
  · exact hd hc
  · rw [hd'] at hc
    cases hc

/-- No literal begins with a blank. -/
theorem LiteralWritten.stops_blank {start : Char → Bool} {s : String} {ws : List Char}
    (h : LiteralWritten start s ws) (rest : List Char) : Stops isBlank (ws ++ rest) := by
  obtain ⟨c, cs, rfl, hc⟩ := h.exists_cons
  rcases hc with rfl | ⟨-, hc⟩
  · exact stops_cons (by decide)
  · exact stops_cons (isBlank_eq_false_of_isLiteralChar hc)

theorem OperandWritten.stops_blank {start : Char → Bool} {o : Operand} {ws : List Char}
    (h : OperandWritten start o ws) (rest : List Char) : Stops isBlank (ws ++ rest) := by
  cases h with
  | sigil => exact stops_cons (by decide)
  | literal h => exact h.stops_blank rest

/-- No call begins as markup or as a quoted pattern does. -/
theorem CallWritten.exists_cons {o : Option Operand} {f : Option FunctionUse} {ws : List Char}
    (h : CallWritten o f ws) :
    ∃ c cs, ws = c :: cs ∧ isBlank c = false ∧ c ≠ '#' ∧ c ≠ '/' ∧ c ≠ '\x7b' := by
  have hoperand : ∀ o ws, OperandWritten isLiteralStart o ws →
      ∃ c cs, ws = c :: cs ∧ isBlank c = false ∧ c ≠ '#' ∧ c ≠ '/' ∧ c ≠ '\x7b' := by
    intro o ws h
    cases h with
    | sigil => exact ⟨_, _, rfl, by decide, by decide, by decide, by decide⟩
    | literal h =>
      have hblank := h.stops_blank []
      obtain ⟨c, cs, rfl, -⟩ := h.exists_cons
      exact ⟨c, cs, rfl, hblank c _ rfl, h.head_ne (by decide) (by decide),
        h.head_ne (by decide) (by decide), h.head_ne (by decide) (by decide)⟩
  cases h with
  | operand h => exact hoperand _ _ h
  | function h => cases h; exact ⟨_, _, rfl, by decide, by decide, by decide, by decide⟩
  | both h _ _ _ =>
    obtain ⟨c, cs, rfl, hc⟩ := hoperand _ _ h
    exact ⟨c, _, rfl, hc⟩

/-! ## Where placeholders end -/

/-- What the end of a placeholder may begin with. -/
def isEnder (c : Char) : Bool := c == '@' || c == '/' || c == '\x7d'

theorem isDelimiter_of_isEnder {c : Char} (h : isEnder c = true) : isDelimiter c = true := by
  simp only [isEnder, Bool.or_eq_true, beq_iff_eq] at h
  rcases h with (rfl | rfl) | rfl <;> decide

theorem isBlank_eq_false_of_isEnder {c : Char} (h : isEnder c = true) : isBlank c = false := by
  simp only [isEnder, Bool.or_eq_true, beq_iff_eq] at h
  rcases h with (rfl | rfl) | rfl <;> decide

/-- After blanks, the text goes on with the end of a placeholder. -/
def Ended (rest : List Char) : Prop :=
  ∃ b c cs, rest = b ++ c :: cs ∧ Blanks b ∧ isEnder c = true

theorem Ended.delimited {rest : List Char} (h : Ended rest) : Delimited rest := by
  obtain ⟨b, c, cs, rfl, hb, hc⟩ := h
  exact (Delimited.cons (isDelimiter_of_isEnder hc)).blanks hb

theorem AttributeWritten.ne_nil {u : Unit} {ws : List Char} (h : AttributeWritten u ws) :
    ws ≠ [] := by
  cases h <;> simp

/-- Blanks before an attribute may be left out. -/
theorem AttributeWritten.exists_blanks {ws : List Char} (h : AttributeWritten () ws) :
    ∃ b vs, ws = b ++ '@' :: vs ∧ Blanks b ∧ AttributeWritten () ('@' :: vs) := by
  cases h with
  | @bare name b hb hname =>
    exact ⟨b, name.toList, rfl, hb, .bare blanks_nil hname⟩
  | @valued name value b b₁ b₂ ws hb hname hb₁ hb₂ hw =>
    exact ⟨b, _, rfl, hb, .valued blanks_nil hname hb₁ hb₂ hw⟩

/-- Blanks at the end of a placeholder may be left out where it begins. -/
theorem EndingWritten.exists_blanks {vs : List Char} {c : Char} (h : EndingWritten vs)
    (hc : isEnder c = true) (rest : List Char) :
    ∃ b us d cs, vs = b ++ us ∧ Blanks b ∧ EndingWritten us ∧ us ++ c :: rest = d :: cs ∧
      isEnder d = true := by
  obtain @⟨attributes, ws, b, hws, hb⟩ := h
  cases hws with
  | nil => exact ⟨b, [], c, rest, by simp, hb, .mk .nil blanks_nil, rfl, hc⟩
  | @cons a as ws vs ha has =>
    obtain ⟨b₀, us, rfl, hb₀, hus⟩ := ha.exists_blanks
    refine ⟨b₀, _, '@', us ++ vs ++ b ++ c :: rest, ?_, hb₀, .mk (.cons hus has) hb, ?_, rfl⟩
    · simp
    · simp

theorem EndingWritten.ended {vs : List Char} {c : Char} (h : EndingWritten vs)
    (hc : isEnder c = true) (rest : List Char) : Ended (vs ++ c :: rest) := by
  obtain ⟨b, us, d, cs, rfl, hb, -, hus, hd⟩ := h.exists_blanks hc rest
  exact ⟨b, d, cs, by rw [List.append_assoc, hus], hb, hd⟩

theorem OptionWritten.ne_nil {o : OptionEntry} {ws : List Char} (h : OptionWritten o ws) :
    ws ≠ [] := by
  cases h with
  | mk _ hne _ _ _ => simp [hne]

theorem OptionWritten.delimited {o : OptionEntry} {ws rest : List Char}
    (h : OptionWritten o ws) : Delimited (ws ++ rest) := by
  cases h with
  | mk hb hne _ _ _ =>
    rw [List.append_assoc]
    exact .of_blanks hb hne

/-- Things in a row, each beginning with a delimiter, delimit what is before them. -/
theorem WrittenAll.delimited {α : Type} {W : α → List Char → Prop} {as : List α}
    {ws rest : List Char} (h : WrittenAll W as ws)
    (hW : ∀ a vs us, W a vs → Delimited (vs ++ us)) (hr : as = [] → Delimited rest) :
    Delimited (ws ++ rest) := by
  cases h with
  | nil => exact hr rfl
  | cons ha _ =>
    rw [List.append_assoc]
    exact hW _ _ _ ha

namespace Scanner

variable {rest : List Char}

theorem skipWhile_of_stops {b : List Char} (hb : Blanks b) (hr : Stops isBlank rest)
    (p : Position) : Cursor.skipWhile ⟨b ++ rest, p⟩ isBlank = ⟨rest, p.advanceOver b⟩ := by
  obtain ⟨htake, hdrop⟩ := takeWhile_of_stops hb hr
  rw [Cursor.skipWhile, htake, hdrop]

/-! ## Options -/

theorem reads_optionValue {o : Operand} {ws : List Char} (h : OperandWritten isLiteralChar o ws)
    (ho : o.WellFormed) (hr : Delimited rest) : Reads id optionValue (ws ++ rest) rest o := by
  unfold optionValue
  refine reads_peek.next ?_
  cases h with
  | sigil =>
    rw [List.cons_append, List.head?_cons, if_pos rfl]
    exact (reads_skip 1).next ((reads_name ho hr.stops_name).next (.pure rfl))
  | literal h =>
    have hread := reads_literal h hr.stops_literal
    obtain ⟨c, cs, rfl, -⟩ := h.exists_cons
    rw [List.cons_append, List.head?_cons,
      if_neg fun heq => h.head_ne (by decide) (by decide) (Option.some.inj heq)]
    exact hread.next (.pure rfl)

theorem reads_option? {found : List OptionEntry} {o : OptionEntry} {ws : List Char}
    (h : OptionWritten o ws) (hname : IsIdentifier o.name) (hvalue : o.value.WellFormed)
    (hnew : ∀ f ∈ found, f.name ≠ o.name) (hr : Delimited rest) :
    Reads id (option? found) (ws ++ rest) rest (some o) := by
  cases h with
  | @mk b b₁ b₂ ws hb hne hb₁ hb₂ hw =>
    obtain ⟨c, cs, hcons, hc⟩ := hname.exists_cons
    have hstart : Stops isBlank (o.name.toList ++ (b₁ ++ '=' :: (b₂ ++ (ws ++ rest)))) := by
      rw [hcons]
      exact stops_cons (isBlank_eq_false_of_isNameStart hc)
    have hend : Delimited (b₁ ++ '=' :: (b₂ ++ (ws ++ rest))) :=
      (Delimited.cons (by decide)).blanks hb₁
    have hany : found.any (·.name == o.name) = false := by
      rw [List.any_eq_false]
      intro f hf heq
      exact hnew f hf (beq_iff_eq.mp heq)
    have hshorter : ∀ text : List Char, text.length < (b ++ text).length := by
      intro text
      have hpos := List.length_pos_iff.mpr hne
      rw [List.length_append]
      omega
    simp only [List.append_assoc, List.cons_append]
    unfold option?
    refine Reads.get fun p => Reads.get fun q => ?_
    dsimp only
    rw [skipWhile_of_stops hb hstart, if_pos]
    · refine Reads.set ((reads_identifier hname hend).next ?_)
      dsimp only
      rw [hany, if_neg (by decide)]
      refine (reads_skipBlanks hb₁ (stops_cons (by decide))).next ?_
      refine (reads_expect '=').next ?_
      refine (reads_skipBlanks hb₂ (hw.stops_blank _)).next ?_
      exact (reads_optionValue hw hvalue hr).next (.pure rfl)
    · rw [Bool.and_eq_true, decide_eq_true_iff]
      refine ⟨hshorter _, ?_⟩
      rw [hcons]
      exact hc

/-- No option is next where a placeholder ends. -/
theorem reads_option?_stop (h : Ended rest) (found : List OptionEntry) :
    Reads id (option? found) rest rest none := by
  obtain ⟨b, c, cs, rfl, hb, hc⟩ := h
  have hstart : isNameStart c = false := by
    simp only [isEnder, Bool.or_eq_true, beq_iff_eq] at hc
    rcases hc with (rfl | rfl) | rfl <;> decide
  unfold option?
  refine Reads.get fun p => Reads.get fun q => ?_
  dsimp only
  rw [skipWhile_of_stops hb (stops_cons (isBlank_eq_false_of_isEnder hc)), if_neg]
  · exact .pure rfl
  · simp [hstart]

/-- The options to come are well formed, and no name is found or comes twice. -/
def OptionsAhead (found os : List OptionEntry) : Prop :=
  ((found ++ os).map (·.name)).Nodup ∧ ∀ o ∈ os, IsIdentifier o.name ∧ o.value.WellFormed

theorem OptionsAhead.name_ne {found os : List OptionEntry} {o : OptionEntry}
    (h : OptionsAhead found (o :: os)) : ∀ f ∈ found, f.name ≠ o.name := by
  intro f hf heq
  have hdisjoint := h.1
  rw [List.map_append, List.nodup_append] at hdisjoint
  exact hdisjoint.2.2 f.name (List.mem_map_of_mem hf) o.name (by simp) heq

theorem reads_options {os : List OptionEntry} {ws : List Char} (h : WrittenAll OptionWritten os ws)
    (hos : OptionsWellFormed os) (hr : Ended rest) : Reads id options (ws ++ rest) rest os := by
  have hgood : OptionsAhead [] os := ⟨hos.distinct, fun o ho => ⟨hos.names o ho, hos.values o ho⟩⟩
  refine reads_collect ?_ ?_ (fun found _ => reads_option?_stop hr found) h hgood
  · intro found o os ws vs hahead hw hvs
    obtain ⟨hname, hvalue⟩ := hahead.2 o List.mem_cons_self
    have hdelimited := hvs.delimited (fun _ _ _ h => h.delimited) fun _ => hr.delimited
    exact ⟨hw.ne_nil, reads_option? hw hname hvalue hahead.name_ne hdelimited⟩
  · intro found o os hahead
    refine ⟨?_, fun o' ho' => hahead.2 o' (List.mem_cons_of_mem _ ho')⟩
    rw [List.append_assoc]
    exact hahead.1

/-! ## Attributes -/

theorem reads_attributeValue_stop (h : Ended rest) : Reads id attributeValue rest rest () := by
  obtain ⟨b, c, cs, rfl, hb, hc⟩ := h
  have hequals : c ≠ '=' := by rintro rfl; cases hc
  unfold attributeValue
  refine Reads.get fun p => ?_
  dsimp only
  rw [skipWhile_of_stops hb (stops_cons (isBlank_eq_false_of_isEnder hc)), if_neg]
  · exact .pure rfl
  · simp [hequals]

theorem reads_attributeValue {s : String} {b₁ b₂ ws : List Char} (hb₁ : Blanks b₁)
    (hb₂ : Blanks b₂) (h : LiteralWritten isLiteralChar s ws) (hr : Delimited rest) :
    Reads id attributeValue (b₁ ++ '=' :: (b₂ ++ (ws ++ rest))) rest () := by
  unfold attributeValue
  refine Reads.get fun p => ?_
  dsimp only
  rw [skipWhile_of_stops hb₁ (stops_cons (by decide)), if_pos List.head?_cons]
  refine Reads.set ((reads_skipBlanks hb₂ (h.stops_blank _)).next ?_)
  exact (reads_literal h hr.stops_literal).next (.pure rfl)

theorem reads_attribute? {ws : List Char} (h : AttributeWritten () ws) (hr : Ended rest) :
    Reads id attribute? (ws ++ rest) rest (some ()) := by
  unfold attribute?
  refine Reads.get fun p => ?_
  dsimp only
  cases h with
  | @bare name b hb hname =>
    rw [List.append_assoc, List.cons_append,
      skipWhile_of_stops hb (stops_cons (by decide)), if_pos List.head?_cons]
    refine Reads.set ((reads_identifier hname hr.delimited).next ?_)
    exact (reads_attributeValue_stop hr).next (.pure rfl)
  | @valued name value b b₁ b₂ ws hb hname hb₁ hb₂ hw =>
    simp only [List.append_assoc, List.cons_append]
    rw [skipWhile_of_stops hb (stops_cons (by decide)), if_pos List.head?_cons]
    have hend : Delimited (b₁ ++ '=' :: (b₂ ++ (ws ++ rest))) :=
      (Delimited.cons (by decide)).blanks hb₁
    refine Reads.set ((reads_identifier hname hend).next ?_)
    exact (reads_attributeValue hb₁ hb₂ hw hr.delimited).next (.pure rfl)

theorem reads_attribute?_stop {b cs : List Char} {c : Char} (hb : Blanks b)
    (hc : c = '/' ∨ c = '\x7d') :
    Reads id attribute? (b ++ c :: cs) (b ++ c :: cs) none := by
  have hblank : isBlank c = false := by rcases hc with rfl | rfl <;> decide
  have hat : c ≠ '@' := by rcases hc with rfl | rfl <;> decide
  unfold attribute?
  refine Reads.get fun p => ?_
  dsimp only
  rw [skipWhile_of_stops hb (stops_cons hblank), if_neg]
  · exact .pure rfl
  · simp [hat]

/-- Attributes and blanks are passed over up to what closes a placeholder. -/
theorem Reads.ending {α β : Type} {view : α → β} {g : Scanner α} {a : α} {vs mid : List Char}
    {c : Char} (h : EndingWritten vs) (hc : c = '/' ∨ c = '\x7d')
    (hg : Reads view g (c :: mid) rest a) :
    Reads view (do attributes; let _ ← skipBlanks; g) (vs ++ c :: mid) rest a := by
  have hender : isEnder c = true := by rcases hc with rfl | rfl <;> rfl
  obtain @⟨as, ws, b, hws, hb⟩ := h
  rw [List.append_assoc]
  have hread : Reads id (collect fun _ => attribute?) (ws ++ (b ++ c :: mid)) (b ++ c :: mid)
      as := by
    refine reads_collect (G := fun _ _ => True) ?_ (fun _ _ _ _ => trivial)
      (fun _ _ => reads_attribute?_stop hb hc) hws trivial
    intro _ _ as us vs _ hu hvs
    have hended := (EndingWritten.mk hvs hb).ended hender mid
    rw [List.append_assoc] at hended
    exact ⟨hu.ne_nil, reads_attribute? hu hended⟩
  have hattributes : Reads id attributes (ws ++ (b ++ c :: mid)) (b ++ c :: mid) () := by
    unfold attributes
    exact hread.next (.pure rfl)
  refine hattributes.next ?_
  exact (reads_skipBlanks hb (stops_cons (isBlank_eq_false_of_isEnder hender))).next hg

theorem reads_closingBrace : Reads id closingBrace ('\x7d' :: rest) rest () := by
  unfold closingBrace
  exact reads_peek.next (reads_skip 1)

/-! ## Markup -/

/-- The sign that closes opening or standalone markup tells which it is. -/
theorem reads_markupKind {kind : MarkupKind} {vs : List Char} (h : EndingWritten vs)
    (hkind : kind ≠ .closing) :
    Reads id markupKind (vs ++ (kind.signs.2 ++ rest)) ('\x7d' :: rest) kind := by
  unfold markupKind
  cases kind with
  | closing => exact absurd rfl hkind
  | opening =>
    refine Reads.ending h (.inr rfl) (reads_peek.next ?_)
    rw [List.head?_cons, if_neg (by decide)]
    exact .pure rfl
  | standalone =>
    refine Reads.ending h (.inl rfl) (reads_peek.next ?_)
    rw [List.head?_cons, if_pos rfl]
    exact (reads_skip 1).next (.pure rfl)

/-- Markup ends after its options. -/
theorem ended_signs {vs : List Char} (h : EndingWritten vs) (kind : MarkupKind)
    (rest : List Char) : Ended (vs ++ (kind.signs.2 ++ rest)) := by
  cases kind with
  | opening => exact h.ended rfl _
  | standalone => exact h.ended rfl _
  | closing => exact h.ended rfl _

theorem reads_openingMarkup {m : Markup} {ws vs : List Char}
    (h : WrittenAll OptionWritten m.options ws) (he : EndingWritten vs) (hm : m.WellFormed)
    (hkind : m.kind ≠ .closing) (start : Position) :
    Reads Markup.unplaced (openingMarkup start)
      ('#' :: (m.name.toList ++ (ws ++ (vs ++ (m.kind.signs.2 ++ rest))))) rest m := by
  have hended := ended_signs he m.kind rest
  have hoptions := h.delimited (fun _ _ _ h => h.delimited) fun _ => hended.delimited
  unfold openingMarkup
  refine (reads_skip 1).next ((reads_identifier hm.name hoptions).next ?_)
  refine (reads_options h hm.options hended).next ((reads_markupKind he hkind).next ?_)
  exact reads_closingBrace.next ((reads_spanFrom start).bind fun _ _ => .pure rfl)

theorem reads_closingMarkup {m : Markup} {ws vs : List Char}
    (h : WrittenAll OptionWritten m.options ws) (he : EndingWritten vs) (hm : m.WellFormed)
    (hkind : m.kind = .closing) (start : Position) :
    Reads Markup.unplaced (closingMarkup start)
      ('/' :: (m.name.toList ++ (ws ++ (vs ++ (m.kind.signs.2 ++ rest))))) rest m := by
  have hended := ended_signs he m.kind rest
  have hoptions := h.delimited (fun _ _ _ h => h.delimited) fun _ => hended.delimited
  unfold closingMarkup
  refine (reads_skip 1).next ((reads_identifier hm.name hoptions).next ?_)
  refine (reads_options h hm.options hended).next ?_
  rw [hkind]
  refine Reads.ending he (.inr rfl) (reads_closingBrace.next ?_)
  refine (reads_spanFrom start).bind fun _ _ => .pure ?_
  rw [Markup.unplaced, Markup.unplaced, hkind]

/-! ## Expressions -/

theorem reads_operand? {o : Operand} {ws : List Char} (h : OperandWritten isLiteralStart o ws)
    (ho : o.WellFormed) (hr : Delimited rest) : Reads id operand? (ws ++ rest) rest (some o) := by
  unfold operand?
  refine reads_peek.next ?_
  cases h with
  | sigil => exact (reads_skip 1).next ((reads_name ho hr.stops_name).next (.pure rfl))
  | literal h =>
    have hread := reads_literal h hr.stops_literal
    obtain ⟨c, cs, rfl, hc⟩ := h.exists_cons
    rw [List.cons_append, List.head?_cons]
    split
    · next heq => cases heq
    · next heq => exact absurd (Option.some.inj heq) (h.head_ne (by decide) (by decide))
    · next heq => exact absurd (Option.some.inj heq) (h.head_ne (by decide) (by decide))
    · next d _ _ heq =>
      cases heq
      rw [if_pos]
      · exact hread.next (.pure rfl)
      · rcases hc with hc | ⟨hc, -⟩
        · simp [hc]
        · simp [hc]

/-- Blanks part a function from an operand, and none stand before it otherwise. -/
theorem reads_functionUse? {f : FunctionUse} {b ws : List Char} (hb : Blanks b)
    (h : FunctionWritten f ws) (hf : f.WellFormed) (hr : Ended rest) :
    Reads id (functionUse? !b.isEmpty) (b ++ (ws ++ rest)) rest (some f) := by
  cases h with
  | @mk ws h =>
    have hoptions := h.delimited (fun _ _ _ h => h.delimited) fun _ => hr.delimited
    have hcall : Reads id (do skip 1; let name ← identifier; return some ⟨name, ← options⟩)
        (':' :: (f.name.toList ++ (ws ++ rest))) rest (some f) :=
      (reads_skip 1).next ((reads_identifier hf.name hoptions).next
        ((reads_options h hf.options hr).next (.pure rfl)))
    rw [List.cons_append, List.append_assoc]
    unfold functionUse?
    cases b with
    | nil =>
      dsimp only [List.isEmpty_nil]
      rw [if_neg (by decide)]
      refine Reads.next (Reads.pure rfl) (reads_peek.next ?_)
      rw [List.nil_append, List.head?_cons, if_pos rfl]
      exact hcall
    | cons c b =>
      refine (reads_skipBlanks hb (stops_cons (by decide))).next (reads_peek.next ?_)
      rw [List.head?_cons, if_pos rfl]
      exact hcall

/-- Where there is no function, the blanks after an operand are passed over. -/
theorem reads_functionUse?_stop {b cs : List Char} {c : Char} (hb : Blanks b)
    (hc : isEnder c = true) : Reads id (functionUse? true) (b ++ c :: cs) (c :: cs) none := by
  have hcolon : c ≠ ':' := by rintro rfl; cases hc
  unfold functionUse?
  refine (reads_skipBlanks hb (stops_cons (isBlank_eq_false_of_isEnder hc))).next ?_
  refine reads_peek.next ?_
  rw [List.head?_cons, if_neg fun heq => hcolon (Option.some.inj heq)]
  exact .pure rfl

theorem reads_expressionEnd {operand : Option Operand} {function : Option FunctionUse}
    {span : Span} {vs : List Char} (he : EndingWritten vs) (start : Position) :
    Reads Expression.unplaced
      (do
        attributes
        let _ ← skipBlanks
        closingBrace
        return ⟨operand, function, ← spanFrom start⟩)
      (vs ++ '\x7d' :: rest) rest ⟨operand, function, span⟩ :=
  Reads.ending he (.inr rfl) (reads_closingBrace.next
    ((reads_spanFrom start).bind fun _ _ => .pure rfl))

theorem reads_expressionBody {e : Expression} {ws vs : List Char}
    (h : CallWritten e.operand e.function ws) (he : EndingWritten vs) (hwf : e.WellFormed)
    (start : Position) :
    Reads Expression.unplaced (expressionBody start) (ws ++ (vs ++ '\x7d' :: rest)) rest e := by
  obtain ⟨operand, function, span⟩ := e
  have hended := he.ended (c := '\x7d') rfl rest
  unfold expressionBody
  cases h with
  | @operand o ws ho =>
    refine (reads_operand? ho (hwf.operand o rfl) hended.delimited).next ?_
    obtain ⟨b, us, d, cs, rfl, hb, hus, heq, hd⟩ := he.exists_blanks (c := '\x7d') rfl rest
    rw [List.append_assoc, heq]
    refine (reads_functionUse?_stop hb hd).next ?_
    rw [← heq]
    exact reads_expressionEnd hus start
  | @function f ws hf =>
    have hcall := reads_functionUse? blanks_nil hf (hwf.function f rfl) hended
    have hnone : Reads id operand? (ws ++ (vs ++ '\x7d' :: rest)) (ws ++ (vs ++ '\x7d' :: rest))
        none := by
      cases hf
      unfold operand?
      exact reads_peek.next (.pure rfl)
    exact hnone.next (hcall.next (reads_expressionEnd he start))
  | @both o f ws b us ho hb hne hf =>
    have hcall := reads_functionUse? hb hf (hwf.function f rfl) hended
    rw [List.isEmpty_eq_false_iff.mpr hne] at hcall
    rw [List.append_assoc, List.append_assoc]
    refine (reads_operand? ho (hwf.operand o rfl) (.of_blanks hb hne)).next ?_
    exact hcall.next (reads_expressionEnd he start)

/-! ## Anything in braces -/

/-- After an opening brace and blanks, what comes next decides how to go on. -/
theorem reads_opened {α β : Type} {view : α → β} {g : Position → Option Char → Scanner α} {a : α}
    {b cs : List Char} {c : Char} (hb : Blanks b) (hcs : cs.head? = some c)
    (hc : isBlank c = false) (hg : ∀ start, Reads view (g start (some c)) cs rest a) :
    Reads view
      (do
        let start ← position
        expect '\x7b'
        let _ ← skipBlanks
        g start (← peek))
      ('\x7b' :: (b ++ cs)) rest a := by
  have hstops : Stops isBlank cs := by
    intro d ds heq
    rw [heq, List.head?_cons] at hcs
    cases hcs
    exact hc
  refine reads_position.bind fun start _ => (reads_expect '\x7b').next ?_
  refine (reads_skipBlanks hb hstops).next (reads_peek.next ?_)
  rw [hcs]
  exact hg start

theorem reads_expression {e : Expression} {ws : List Char} (h : ExpressionWritten e ws)
    (hwf : e.WellFormed) : Reads Expression.unplaced expression (ws ++ rest) rest e := by
  cases h with
  | @mk b ws vs hb hcall he =>
    obtain ⟨c, cs, hcons, hblank, hsign, hslash, -⟩ := hcall.exists_cons
    have hhead : (ws ++ (vs ++ '\x7d' :: rest)).head? = some c := by rw [hcons]; rfl
    simp only [List.append_assoc, List.cons_append, List.nil_append]
    unfold expression
    refine reads_opened hb hhead hblank fun start => ?_
    split
    · next heq => exact absurd (Option.some.inj heq) hsign
    · next heq => exact absurd (Option.some.inj heq) hslash
    · exact reads_expressionBody hcall he hwf start

theorem reads_placeholder_of_expression {e : Expression} {ws : List Char}
    (h : ExpressionWritten e ws) (hwf : e.WellFormed) :
    Reads PatternItem.unplaced placeholder (ws ++ rest) rest (.expression e) := by
  cases h with
  | @mk b ws vs hb hcall he =>
    obtain ⟨c, cs, hcons, hblank, hsign, hslash, -⟩ := hcall.exists_cons
    have hhead : (ws ++ (vs ++ '\x7d' :: rest)).head? = some c := by rw [hcons]; rfl
    simp only [List.append_assoc, List.cons_append, List.nil_append]
    unfold placeholder
    refine reads_opened hb hhead hblank fun start => ?_
    split
    · next heq => exact absurd (Option.some.inj heq) hsign
    · next heq => exact absurd (Option.some.inj heq) hslash
    · refine (reads_expressionBody hcall he hwf start).bind fun e' he' => .pure ?_
      rw [PatternItem.unplaced, PatternItem.unplaced, he']

theorem reads_placeholder_of_markup {m : Markup} {ws : List Char} (h : MarkupWritten m ws)
    (hwf : m.WellFormed) :
    Reads PatternItem.unplaced placeholder (ws ++ rest) rest (.markup m) := by
  cases h with
  | @mk b ws vs hb hoptions he =>
    simp only [List.append_assoc, List.cons_append]
    unfold placeholder
    by_cases hkind : m.kind = .closing
    · have hsign : m.kind.signs.1 = '/' := by rw [hkind]; rfl
      rw [hsign]
      refine reads_opened hb List.head?_cons (by decide) fun start => ?_
      refine (reads_closingMarkup hoptions he hwf hkind start).bind fun m' hm' => .pure ?_
      rw [PatternItem.unplaced, PatternItem.unplaced, hm']
    · have hsign : m.kind.signs.1 = '#' := by
        cases hm : m.kind with
        | closing => exact absurd hm hkind
        | opening => rfl
        | standalone => rfl
      rw [hsign]
      refine reads_opened hb List.head?_cons (by decide) fun start => ?_
      refine (reads_openingMarkup hoptions he hwf hkind start).bind fun m' hm' => .pure ?_
      rw [PatternItem.unplaced, PatternItem.unplaced, hm']

end Scanner

end Phrasebook
