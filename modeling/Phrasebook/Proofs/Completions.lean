import Phrasebook.Proofs.Runs

/-!
Errors that come right after what can still be completed.

`Begins` says that some characters begin a text of a kind, and `Scanner.Breaks` that a scanner
passes over characters that are in a relation with what it gives, or that its error comes right
after characters with a property, which is mostly that they begin a text of a kind. It goes through
binds, checks and repetition. Errors over escapes are left out, for no text goes on after a
backslash with what is not to be escaped.
-/

namespace Phrasebook

/-! ## Kinds of texts -/

/-- Some characters begin a text of a kind. -/
def Begins (W : List Char → Prop) (ws : List Char) : Prop := ∃ t, W (ws ++ t)

theorem Begins.of {W : List Char → Prop} {ws t : List Char} (h : W (ws ++ t)) : Begins W ws :=
  ⟨t, h⟩

/-- One thing that is written so and has a property. -/
def Formed {α : Type} (W : α → List Char → Prop) (P : α → Prop) (ws : List Char) : Prop :=
  ∃ a, W a ws ∧ P a

/-- Such things in a row, at least one. -/
def FormedAll {α : Type} (W : α → List Char → Prop) (P : α → Prop) (ws : List Char) : Prop :=
  ∃ as, as ≠ [] ∧ WrittenAll W as ws ∧ ∀ a ∈ as, P a

/-- A step took one such thing, or only blanks. -/
def TookOrBlanks {α : Type} (W : α → List Char → Prop) (P : α → Prop) :
    Option α → List Char → Prop
  | some a, ws => W a ws ∧ P a
  | none, ws => Blanks ws

theorem FormedAll.concat {α : Type} {W : α → List Char → Prop} {P : α → Prop} {as : List α}
    {ws vs : List Char} (hws : WrittenAll W as ws) (has : ∀ a ∈ as, P a) (h : Formed W P vs) :
    FormedAll W P (ws ++ vs) := by
  obtain ⟨a, hvs, ha⟩ := h
  refine ⟨as ++ [a], by simp, hws.concat hvs, ?_⟩
  exact List.forall_mem_append.mpr ⟨has, List.forall_mem_singleton.mpr ha⟩

namespace Scanner

variable {α β : Type} {c : Cursor} {s : Scanner α} {g : α → Scanner β}
  {R R' : α → List Char → Cursor → Prop} {S : β → List Char → Cursor → Prop}
  {Q Q' : List Char → Prop}

/-! ## Errors after a beginning -/

/-- Unless it is over an escape, an error comes right after characters that have a property. -/
def BreaksAfter (Q : List Char → Prop) (e : SyntaxError) (ws : List Char) (d : Cursor) : Prop :=
  e.fault ≠ .invalidEscape → e.span.start = d.position.offset ∧ Q ws

/-- The scanner passes over characters that are in a relation with what it gives, or its error comes
right after characters that have a property. -/
abbrev Breaks (s : Scanner α) (c : Cursor) (R : α → List Char → Cursor → Prop)
    (Q : List Char → Prop) : Prop := Runs s c R (BreaksAfter Q)

theorem Breaks.imp (h : Breaks s c R' Q') (hR : ∀ a ws d, c.Passes ws d → R' a ws d → R a ws d)
    (hQ : ∀ ws, Q' ws → Q ws) : Breaks s c R Q :=
  Runs.imp h hR fun _ ws _ he hfault => ⟨(he hfault).1, hQ ws (he hfault).2⟩

theorem Breaks.imp_breaks (h : Breaks s c R Q') (hQ : ∀ ws, Q' ws → Q ws) : Breaks s c R Q :=
  h.imp (fun _ _ _ _ hR => hR) hQ

/-- What stands before an error is what comes next in the text. -/
theorem Breaks.passing (h : Breaks s c R Q) : Breaks s c R fun ws => Q ws ∧ ws <+: c.rest := by
  refine ⟨h.passes, fun e hrun => ?_⟩
  obtain ⟨ws, d, hws, he⟩ := h.fails e hrun
  exact ⟨ws, d, hws, fun hfault => ⟨(he hfault).1, (he hfault).2, d.rest, hws.1.symm⟩⟩

theorem Breaks.bind (hs : Breaks s c R Q') (hQ : ∀ ws, Q' ws → Q ws)
    (hg : ∀ a ws d, c.Passes ws d → R a ws d →
      Breaks (g a) d (fun b vs => S b (ws ++ vs)) fun vs => Q (ws ++ vs)) :
    Breaks (s >>= g) c S Q := Runs.bind (hs.imp_breaks hQ) hg

/-- A bind whose first scanner has no errors. -/
theorem Breaks.after (hs : Runs s c R fun _ _ _ => False)
    (hg : ∀ a ws d, c.Passes ws d → R a ws d →
      Breaks (g a) d (fun b vs => S b (ws ++ vs)) fun vs => Q (ws ++ vs)) :
    Breaks (s >>= g) c S Q :=
  Runs.bind (hs.imp (fun _ _ _ _ hR => hR) fun _ _ _ hfalse => hfalse.elim) hg

theorem breaks_fail {fault : SyntaxFault} (h : Q []) : Breaks (fail fault) c R Q :=
  runs_fail fun _ => ⟨rfl, h⟩

theorem Breaks.guard {b : Prop} [Decidable b] {fault : SyntaxFault} {rest : PUnit → Scanner β}
    (hfail : b → Q []) (h : ¬ b → Breaks (rest ⟨⟩) c S Q) :
    Breaks (if b then fail fault >>= rest else rest ⟨⟩) c S Q :=
  Runs.guard (fun hb _ => ⟨rfl, hfail hb⟩) h

/-- What is known of the scanner when it succeeds. -/
theorem Breaks.traced {T : α → List Char → Prop} {Y : α → Prop}
    (h : Breaks s c (fun _ _ _ => True) Q) (hs : Traces c s c T) (hy : Yields s Y) :
    Breaks s c (fun a ws _ => T a ws ∧ Y a) Q :=
  ((h.traces hs).ensures (hy c)).imp_passes fun _ _ _ _ ha => ⟨ha.1.2, ha.2⟩

/-- A check of what was just read, whose error is at where that began. -/
theorem Breaks.checked {b : α → Prop} [DecidablePred b] {fault : α → SyntaxFault}
    {k : α → PUnit → Scanner β} (hs : Breaks s c R Q) (hstart : Q [])
    (hg : ∀ a ws d, ¬ b a → c.Passes ws d → R a ws d →
      Breaks (k a ⟨⟩) d (fun b vs => S b (ws ++ vs)) fun vs => Q (ws ++ vs)) :
    Breaks (s >>= fun a => if b a then
        spanFrom c.position >>= fun span => failAt (fault a) span >>= k a else k a ⟨⟩) c S Q := by
  constructor
  · intro x e hrun
    obtain ⟨⟨a, d⟩, hfirst, hrest⟩ := Outcome.bind_eq_ok hrun
    obtain ⟨ws, hws, ha⟩ := hs.passes a d hfirst
    dsimp only at hrest
    split at hrest
    · cases hrest
    · next hb =>
      obtain ⟨vs, hvs, hx⟩ := (hg a ws d hb hws ha).passes x e hrest
      exact ⟨ws ++ vs, hws.trans hvs, hx⟩
  · intro e hrun
    rcases Outcome.bind_eq_error hrun with hfirst | ⟨⟨a, d⟩, hfirst, hrest⟩
    · exact hs.fails e hfirst
    · obtain ⟨ws, hws, ha⟩ := hs.passes a d hfirst
      dsimp only at hrest
      split at hrest
      · cases hrest
        exact ⟨[], c, .refl c, fun _ => ⟨rfl, hstart⟩⟩
      · next hb =>
        obtain ⟨vs, f, hvs, he⟩ := (hg a ws d hb hws ha).fails e hrest
        exact ⟨ws ++ vs, f, hws.trans hvs, he⟩

/-- A step that takes one thing after blanks, or only blanks, takes things in a row and the blanks
after them. What each thing leaves as it should be, the last one does. -/
theorem breaks_collect {step : Scanner (Option α)} {W : α → List Char → Prop} {P : α → Prop}
    {T : List Char → Prop}
    (hstep : ∀ d, c.Reaches d → Breaks step d (fun a? ws e => TookOrBlanks W P a? ws ∧
      (a?.isSome → T e.rest)) (Begins (Formed W P))) :
    Breaks (collect fun _ => step) c (fun as us d => ∃ ws b, us = ws ++ b ∧ WrittenAll W as ws ∧
      (∀ a ∈ as, P a) ∧ Blanks b ∧ (as ≠ [] → T (b ++ d.rest))) (Begins (FormedAll W P)) := by
  refine runs_collect (I := fun as ws d => WrittenAll W as ws ∧ (∀ a ∈ as, P a) ∧
    (as ≠ [] → T d.rest)) ?_ ?_ ⟨.nil, by simp, by simp⟩
  · rintro found us d hd ⟨hfound, hwf, hleft⟩
    refine (hstep d hd.reaches).imp ?_ ?_
    · rintro (_ | a) ws e he ⟨htook, hnext⟩
      · exact ⟨us, ws, rfl, hfound, hwf, htook, he.1 ▸ hleft⟩
      · obtain ⟨hws, ha⟩ := htook
        exact ⟨hfound.concat hws,
          List.forall_mem_append.mpr ⟨hwf, List.forall_mem_singleton.mpr ha⟩, fun _ => hnext rfl⟩
    · rintro ws ⟨t, hws⟩
      refine .of (t := t) ?_
      rw [List.append_assoc]
      exact .concat hfound hwf hws
  · rintro found us d ⟨hfound, hwf, hleft⟩
    exact ⟨us, [], (List.append_nil us).symm, hfound, hwf, blanks_nil, hleft⟩

end Scanner

end Phrasebook
