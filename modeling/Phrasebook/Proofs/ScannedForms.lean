import Phrasebook.Proofs.Acceptance
import Phrasebook.Proofs.Placeholders

/-!
What the scanners take for variants, beyond the written forms.

The grammar parts keys by blanks. The scanners need them only between literals without bars, and a
variant may stand right after the one before it. `KeysScanned`, `VariantScanned` and `BodyScanned`
are these forms; the written forms of a body are among them (`BodyWritten.scanned`).
-/

namespace Phrasebook

/-! ## Forms -/

/-- The second of two texts does not carry on a literal without bars at the end of the first. -/
def Apart (ws vs : List Char) : Prop :=
  ∀ c ∈ ws.getLast?, isLiteralChar c = true → Stops isLiteralChar vs

/-- Keys, each before the blanks that follow it. -/
inductive KeysScanned : List VariantKey → List Char → Prop
  | nil : KeysScanned [] []
  | cons {k : VariantKey} {ks : List VariantKey} {ws b vs : List Char} :
      KeyText k ws → Blanks b → Apart ws (b ++ vs) → KeysScanned ks vs →
        KeysScanned (k :: ks) (ws ++ (b ++ vs))

/-- A variant after blanks. -/
inductive VariantScanned : Variant → List Char → Prop
  | mk {v : Variant} {b ws vs : List Char} :
      Blanks b → v.keys ≠ [] → KeysScanned v.keys ws → QuotedWritten v.pattern vs →
        VariantScanned v (b ++ (ws ++ vs))

/-- Selectors and variants, of which the first must not carry on the name of the last selector. -/
inductive MatcherScanned : Matcher → List Char → Prop
  | mk {m : Matcher} {ws vs : List Char} :
      WrittenAll SelectorWritten m.selectors ws → WrittenAll VariantScanned m.variants vs →
        m.variants ≠ [] → Stops isNameChar vs → MatcherScanned m (ws ++ vs)

inductive BodyScanned : Body → List Char → Prop
  | pattern {p : Pattern} {ws : List Char} : QuotedWritten p ws → BodyScanned (.pattern p) ws
  | choice {m : Matcher} {ws : List Char} :
      MatcherScanned m ws → BodyScanned (.choice m) (".match".toList ++ ws)

/-! ## Where pieces begin -/

theorem Stops.append {p : Char → Bool} {ws vs : List Char} (hws : Stops p ws) (hvs : Stops p vs) :
    Stops p (ws ++ vs) := by
  cases ws with
  | nil => exact hvs
  | cons c cs => exact stops_cons (hws c cs rfl)

theorem Stops.of_append {p : Char → Bool} {ws vs : List Char} (h : Stops p (ws ++ vs)) :
    Stops p ws := by
  rintro c cs rfl
  exact h c (cs ++ vs) rfl

theorem stops_literal_of_blanks {b : List Char} (hb : Blanks b) : Stops isLiteralChar b := by
  rintro c cs rfl
  exact (isLiteralChar_of_isDelimiter (isDelimiter_of_isBlank (hb c List.mem_cons_self))).1

theorem Stops.name_of_literal {cs : List Char} (h : Stops isLiteralChar cs) :
    Stops isNameChar cs := by
  intro c ds hcs
  have hliteral := h c ds hcs
  cases hname : isNameChar c with
  | false => rfl
  | true =>
    rw [isLiteralChar_of_isNameChar hname] at hliteral
    cases hliteral

/-- Where a literal cannot go on, anything is apart. -/
theorem Apart.of_stops {ws vs : List Char} (h : Stops isLiteralChar vs) : Apart ws vs :=
  fun _ _ _ => h

theorem Apart.append {ws vs us : List Char} (h : Apart ws vs) (hus : Stops isLiteralChar us) :
    Apart ws (vs ++ us) := fun c hc hliteral => (h c hc hliteral).append hus

theorem Apart.of_append {ws vs us : List Char} (h : Apart ws (vs ++ us)) : Apart ws vs :=
  fun c hc hliteral => (h c hc hliteral).of_append

/-- Only the end of the first text matters. -/
theorem Apart.of_append_left {ws us vs : List Char} (h : Apart (ws ++ us) vs) : Apart us vs := by
  intro c hc
  refine h c ?_
  rw [List.getLast?_append, Option.mem_def.mp hc]
  rfl

theorem Apart.append_left {ws us vs : List Char} (h : Apart us vs) (hne : us ≠ []) :
    Apart (ws ++ us) vs := by
  intro c hc
  refine h c ?_
  rw [List.getLast?_append] at hc
  cases hlast : us.getLast? with
  | none => exact absurd (List.getLast?_eq_none_iff.mp hlast) hne
  | some d =>
    rw [hlast] at hc
    exact hc

/-- Blanks may be counted to either text. -/
theorem Apart.blanks {ws b vs : List Char} (h : Apart ws (b ++ vs)) (hb : Blanks b) :
    Apart (ws ++ b) vs := by
  by_cases hnil : b = []
  · subst hnil
    rwa [List.append_nil]
  · refine Apart.append_left (fun c hc hliteral => ?_) hnil
    have hblank := hb c (List.mem_of_getLast? hc)
    rw [isBlank_eq_false_of_isLiteralChar hliteral] at hblank
    cases hblank

/-- No key begins with a blank or as a selector does. -/
theorem KeyText.exists_cons {k : VariantKey} {ws : List Char} (h : KeyText k ws) :
    ∃ c cs, ws = c :: cs ∧ isBlank c = false ∧ c ≠ '$' := by
  cases h with
  | catchAll => exact ⟨'*', [], rfl, by decide, by decide⟩
  | literal h =>
    have hblank := h.stops_blank []
    obtain ⟨c, cs, rfl, -⟩ := h.exists_cons
    exact ⟨c, cs, rfl, hblank c _ rfl, h.head_ne (by decide) (by decide)⟩

theorem KeyText.ne_nil {k : VariantKey} {ws : List Char} (h : KeyText k ws) : ws ≠ [] := by
  obtain ⟨c, cs, rfl, -⟩ := h.exists_cons
  exact List.cons_ne_nil _ _

theorem QuotedWritten.exists_brace {p : Pattern} {ws : List Char} (h : QuotedWritten p ws) :
    ∃ vs, ws = '\x7b' :: vs := by
  cases h
  exact ⟨_, rfl⟩

theorem KeysScanned.stops_blank {ks : List VariantKey} {ws rest : List Char}
    (h : KeysScanned ks ws) (hr : Stops isBlank rest) : Stops isBlank (ws ++ rest) := by
  cases h with
  | nil => exact hr
  | cons hk _ _ _ =>
    obtain ⟨c, cs, rfl, hc, -⟩ := hk.exists_cons
    exact stops_cons hc

/-- One more key, if it does not carry on the one before it. -/
theorem KeysScanned.concat {ks : List VariantKey} {k : VariantKey} {ws us b : List Char}
    (h : KeysScanned ks ws) (hapart : Apart ws us) (hk : KeyText k us) (hb : Blanks b) :
    KeysScanned (ks ++ [k]) (ws ++ (us ++ b)) := by
  induction h with
  | nil =>
    have hend : Apart us (b ++ []) := .of_stops (stops_literal_of_blanks (by simpa using hb))
    have hone := KeysScanned.cons hk hb hend .nil
    rwa [List.append_nil] at hone
  | @cons k₀ ks ws b₀ vs hk₀ hb₀ hfirst _ ih =>
    rw [← List.append_assoc] at hapart
    have hrest := ih hapart.of_append_left
    have hfirst' : Apart ws (b₀ ++ (vs ++ (us ++ b))) := by
      rw [← List.append_assoc]
      cases hmid : b₀ ++ vs with
      | nil =>
        obtain ⟨rfl, rfl⟩ := List.append_eq_nil_iff.mp hmid
        rw [List.append_nil, List.append_nil] at hapart
        exact hapart.append (stops_literal_of_blanks hb)
      | cons c cs =>
        rw [hmid] at hfirst
        intro d hd hliteral
        exact stops_cons (hfirst d hd hliteral c cs rfl)
    have hall := KeysScanned.cons hk₀ hb₀ hfirst' hrest
    simpa using hall

/-- A variant begins with its first key. -/
theorem VariantScanned.exists_cons {v : Variant} {ws : List Char} (h : VariantScanned v ws) :
    ∃ b c cs, ws = b ++ c :: cs ∧ Blanks b ∧ isBlank c = false ∧ c ≠ '$' ∧
      VariantScanned v (c :: cs) := by
  obtain @⟨b, ws, vs, hb, hne, hks, hq⟩ := h
  cases hkeys : v.keys with
  | nil => exact absurd hkeys hne
  | cons k ks =>
    have hscanned : VariantScanned v ([] ++ (ws ++ vs)) := .mk blanks_nil hne hks hq
    rw [hkeys] at hks
    cases hks with
    | cons hk _ _ _ =>
      obtain ⟨c, cs, rfl, hc, hdollar⟩ := hk.exists_cons
      exact ⟨b, c, _, rfl, hb, hc, hdollar, hscanned⟩

theorem VariantScanned.ne_nil {v : Variant} {ws : List Char} (h : VariantScanned v ws) :
    ws ≠ [] := by
  obtain ⟨b, c, cs, rfl, -⟩ := h.exists_cons
  simp

/-- Blanks before the first variant may be left out. -/
theorem WrittenAll.exists_first {vs : List Variant} {ws : List Char}
    (h : WrittenAll VariantScanned vs ws) (hne : vs ≠ []) :
    ∃ b c cs, ws = b ++ c :: cs ∧ Blanks b ∧ isBlank c = false ∧ c ≠ '$' ∧
      WrittenAll VariantScanned vs (c :: cs) := by
  cases h with
  | nil => exact absurd rfl hne
  | cons hv hvs =>
    obtain ⟨b, c, cs, rfl, hb, hc, hdollar, hscanned⟩ := hv.exists_cons
    refine ⟨b, c, cs ++ _, ?_, hb, hc, hdollar, .cons hscanned hvs⟩
    rw [List.append_assoc, List.cons_append]

/-! ## Written forms are scanned -/

/-- The blanks before each key are those after the key before it. -/
theorem WrittenAll.keysScanned {ks : List VariantKey} {ws b : List Char}
    (h : WrittenAll KeyWritten ks ws) (hb : Blanks b) :
    ∃ b₀ us, ws ++ b = b₀ ++ us ∧ Blanks b₀ ∧ Stops isLiteralChar (ws ++ b) ∧
      KeysScanned ks us := by
  induction h with
  | nil => exact ⟨b, [], by simp, hb, stops_literal_of_blanks hb, .nil⟩
  | cons hk _ ih =>
    obtain ⟨b₁, us, heq, hb₁, hstops, hus⟩ := ih
    obtain @⟨b₀, ws, hb₀, hne, hk⟩ := hk
    rw [heq] at hstops
    refine ⟨b₀, ws ++ (b₁ ++ us), ?_, hb₀, ?_, .cons hk hb₁ (.of_stops hstops) hus⟩
    · rw [List.append_assoc, List.append_assoc, heq]
    · rw [List.append_assoc, List.append_assoc]
      exact (Delimited.of_blanks hb₀ hne).stops_literal

theorem VariantWritten.scanned {v : Variant} {ws : List Char} (h : VariantWritten v ws)
    (hne : v.keys ≠ []) : VariantScanned v ws ∧ Stops isLiteralChar ws := by
  obtain @⟨ws, b, vs, hks, hb, hq⟩ := h
  obtain ⟨b₀, us, heq, hb₀, hstops, hus⟩ := hks.keysScanned hb
  have hvs : Stops isLiteralChar vs := by
    obtain ⟨vs, rfl⟩ := hq.exists_brace
    exact stops_cons (by decide)
  rw [← List.append_assoc]
  refine ⟨?_, hstops.append hvs⟩
  rw [heq, List.append_assoc]
  exact .mk hb₀ hne hus hq

theorem WrittenAll.variantsScanned {vs : List Variant} {ws : List Char}
    (h : WrittenAll VariantWritten vs ws) (hvs : ∀ v ∈ vs, v.keys ≠ []) :
    WrittenAll VariantScanned vs ws ∧ Stops isLiteralChar ws := by
  induction h with
  | nil => exact ⟨.nil, stops_nil _⟩
  | cons hv _ ih =>
    obtain ⟨hne, hrest⟩ := List.forall_mem_cons.mp hvs
    obtain ⟨hvs, hstops⟩ := ih hrest
    obtain ⟨hv, hstops'⟩ := hv.scanned hne
    exact ⟨.cons hv hvs, hstops'.append hstops⟩

theorem BodyWritten.scanned {body : Body} {ws : List Char} (h : BodyWritten body ws)
    (hwf : body.WellFormed) : BodyScanned body ws := by
  cases h with
  | pattern hq => exact .pattern hq
  | @choice m ws vs hs hv =>
    have hkeys : ∀ v ∈ m.variants, v.keys ≠ [] := by
      intro v hv
      have hlength := hwf.keys v hv
      have hpos := List.length_pos_iff.mpr hwf.nonempty
      exact List.length_pos_iff.mp (by omega)
    have hne : m.variants ≠ [] := by
      obtain ⟨v, hv, -⟩ := hwf.catchAll
      exact List.ne_nil_of_mem hv
    obtain ⟨hscanned, hstops⟩ := hv.variantsScanned hkeys
    exact .choice (.mk hs hscanned hne hstops.name_of_literal)

/-- The pieces of what is well formed are. -/
theorem Body.WellFormed.pieces {body : Body} (h : body.WellFormed) : body.PiecesWellFormed := by
  cases body with
  | pattern p => exact h
  | choice m => exact ⟨h.nonempty, h.selectors, h.patterns⟩

end Phrasebook
