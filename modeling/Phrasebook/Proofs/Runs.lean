import Phrasebook.Proofs.Tracing

/-!
Runs of scanners: what they pass over, and what is known where they fail.

`Scanner.Runs` says of a scanner at a cursor that it passes over characters which are in a relation
with what it gives and with the cursor after it, and that its errors are in another with characters
that come next and with the cursor after those. It goes through binds, where the characters are put
together, and through `collect`.
-/

namespace Phrasebook

/-- What stands between two cursors is one text. -/
theorem Cursor.Passes.unique {c d : Cursor} {ws vs : List Char} (h : c.Passes ws d)
    (h' : c.Passes vs d) : ws = vs := List.append_cancel_right (h.1.symm.trans h'.1)

namespace Scanner

variable {α β : Type} {c : Cursor} {s : Scanner α} {g : α → Scanner β}
  {R R' : α → List Char → Cursor → Prop} {S : β → List Char → Cursor → Prop}
  {P P' : SyntaxError → List Char → Cursor → Prop}

/-- The scanner passes over characters and stops at a cursor that are in a relation with what it
gives, or its error is in one with characters that it might have passed over. -/
structure Runs (s : Scanner α) (c : Cursor) (R : α → List Char → Cursor → Prop)
    (P : SyntaxError → List Char → Cursor → Prop) : Prop where
  passes : ∀ a d, s c = .ok (a, d) → ∃ ws, c.Passes ws d ∧ R a ws d
  fails : ∀ e, s c = .error e → ∃ ws d, c.Passes ws d ∧ P e ws d

theorem Runs.imp (h : Runs s c R P) (hR : ∀ a ws d, c.Passes ws d → R a ws d → R' a ws d)
    (hP : ∀ e ws d, P e ws d → P' e ws d) : Runs s c R' P' := by
  constructor
  · intro a d hrun
    obtain ⟨ws, hws, ha⟩ := h.passes a d hrun
    exact ⟨ws, hws, hR a ws d hws ha⟩
  · intro e hrun
    obtain ⟨ws, d, hws, he⟩ := h.fails e hrun
    exact ⟨ws, d, hws, hP e ws d he⟩

theorem Runs.imp_passes (h : Runs s c R P) (hR : ∀ a ws d, c.Passes ws d → R a ws d → R' a ws d) :
    Runs s c R' P := h.imp hR fun _ _ _ he => he

/-- What the scanner ensures, it ensures here too. -/
theorem Runs.ensures {T : α → Cursor → Prop} (h : Runs s c R P) (hs : Ensures s c T) :
    Runs s c (fun a ws d => R a ws d ∧ T a d) P := by
  refine ⟨fun a d hrun => ?_, h.fails⟩
  obtain ⟨ws, hws, ha⟩ := h.passes a d hrun
  exact ⟨ws, hws, ha, hs a d hrun⟩

/-- What is known of the characters from elsewhere. -/
theorem Runs.traces {T : α → List Char → Prop} (h : Runs s c R P) (hs : Traces c s c T) :
    Runs s c (fun a ws d => R a ws d ∧ T a ws) P := by
  refine ⟨fun a d hrun => ?_, h.fails⟩
  obtain ⟨ws, hws, ha⟩ := h.passes a d hrun
  obtain ⟨vs, hvs, ha'⟩ := hs.passes a d (.refl c) hrun
  exact ⟨ws, hws, ha, hws.unique hvs ▸ ha'⟩

theorem Runs.pure {a : α} (h : R a [] c) : Runs (pure a) c R P := by
  constructor
  · intro a' d hrun
    cases hrun
    exact ⟨[], .refl c, h⟩
  · intro e hrun
    cases hrun

theorem Runs.bind (hs : Runs s c R P)
    (hg : ∀ a ws d, c.Passes ws d → R a ws d →
      Runs (g a) d (fun b vs => S b (ws ++ vs)) fun e vs => P e (ws ++ vs)) :
    Runs (s >>= g) c S P := by
  constructor
  · intro b e hrun
    obtain ⟨⟨a, d⟩, hfirst, hrest⟩ := Outcome.bind_eq_ok hrun
    obtain ⟨ws, hws, ha⟩ := hs.passes a d hfirst
    obtain ⟨vs, hvs, hb⟩ := (hg a ws d hws ha).passes b e hrest
    exact ⟨ws ++ vs, hws.trans hvs, hb⟩
  · intro e hrun
    rcases Outcome.bind_eq_error hrun with hfirst | ⟨⟨a, d⟩, hfirst, hrest⟩
    · exact hs.fails e hfirst
    · obtain ⟨ws, hws, ha⟩ := hs.passes a d hfirst
      obtain ⟨vs, f, hvs, he⟩ := (hg a ws d hws ha).fails e hrest
      exact ⟨ws ++ vs, f, hws.trans hvs, he⟩

theorem Runs.peek {g : Option Char → Scanner β} (h : Runs (g c.rest.head?) c S P) :
    Runs (peek >>= g) c S P := ⟨h.passes, h.fails⟩

theorem Runs.get {g : Cursor → Scanner β} (h : Runs (g c) c S P) :
    Runs (get >>= g) c S P := ⟨h.passes, h.fails⟩

theorem Runs.position {g : Position → Scanner β} (h : Runs (g c.position) c S P) :
    Runs (position >>= g) c S P := ⟨h.passes, h.fails⟩

theorem Runs.spanFrom {g : Span → Scanner β} {p : Position}
    (h : Runs (g (p.spanTo c.position.offset)) c S P) : Runs (spanFrom p >>= g) c S P :=
  ⟨h.passes, h.fails⟩

theorem Runs.startsWith {g : Bool → Scanner β} {cs : List Char}
    (h : Runs (g (cs.isPrefixOf c.rest)) c S P) : Runs (startsWith cs >>= g) c S P :=
  ⟨h.passes, h.fails⟩

theorem runs_set {R : PUnit → List Char → Cursor → Prop} {ws : List Char} {d : Cursor}
    (hd : c.Passes ws d) (h : R ⟨⟩ ws d) : Runs (set d) c R P := by
  constructor
  · intro a d' hrun
    cases hrun
    exact ⟨ws, hd, h⟩
  · intro e hrun
    cases hrun

theorem Runs.lift {x : Except SyntaxError α}
    (he : ∀ e, x = .error e → ∃ ws d, c.Passes ws d ∧ P e ws d)
    (h : ∀ a, x = .ok a → Runs (g a) c S P) : Runs ((liftM x : Scanner α) >>= g) c S P := by
  cases x with
  | error e =>
    constructor
    · intro b d hrun
      cases hrun
    · intro e' hrun
      cases hrun
      exact he e rfl
  | ok a => exact ⟨(h a rfl).passes, (h a rfl).fails⟩

theorem runs_failAt {fault : SyntaxFault} {span : Span} (h : P ⟨fault, span⟩ [] c) :
    Runs (failAt fault span) c R P := by
  constructor
  · intro a d hrun
    cases hrun
  · intro e hrun
    cases hrun
    exact ⟨[], c, .refl c, h⟩

theorem runs_fail {fault : SyntaxFault} (h : P ⟨fault, c.here⟩ [] c) :
    Runs (fail fault) c R P := Runs.get (runs_failAt h)

/-- Nothing comes after a failure. -/
theorem Runs.stop (hs : Runs s c (fun _ _ _ => False) P) : Runs (s >>= g) c S P :=
  hs.bind fun _ _ _ _ hfalse => hfalse.elim

/-- A scanner after a check. -/
theorem Runs.guard {b : Prop} [Decidable b] {fault : SyntaxFault} {rest : PUnit → Scanner β}
    (hfail : b → P ⟨fault, c.here⟩ [] c) (h : ¬ b → Runs (rest ⟨⟩) c S P) :
    Runs (if b then fail fault >>= rest else rest ⟨⟩) c S P := by
  split
  · next hb => exact (runs_fail (hfail hb)).stop
  · next hb => exact h hb

/-! ## Repetition -/

/-- After a step there is one thing more, or that was all. -/
def Stepped (I J : List α → List Char → Cursor → Prop) (found : List α) (us : List Char) :
    Option α → List Char → Cursor → Prop
  | some a, ws, d => I (found ++ [a]) (us ++ ws) d
  | none, ws, d => J found (us ++ ws) d

variable {step : List α → Scanner (Option α)} {I J : List α → List Char → Cursor → Prop}
  {found : List α} {us : List Char} {d : Cursor}

/-- What each step keeps, a whole repetition keeps up to its last step. -/
theorem runs_collectFrom
    (hstep : ∀ found us d, c.Passes us d → I found us d →
      Runs (step found) d (Stepped I J found us) fun e vs => P e (us ++ vs))
    (hlast : ∀ found us d, I found us d → J found us d) (hd : c.Passes us d) (h : I found us d) :
    Runs (collectFrom step found) d (fun as ws => J as (us ++ ws)) fun e vs => P e (us ++ vs) := by
  constructor
  · intro as e hrun
    fun_induction collectFrom step found d generalizing us with
    | case1 found d e' he => cases hrun
    | case2 found d e' he =>
      cases hrun
      exact (hstep _ us d hd h).passes none e he
    | case3 found d a e' he hlt ih =>
      obtain ⟨ws, hws, hI⟩ := (hstep found us d hd h).passes (some a) e' he
      obtain ⟨vs, hvs, hJ⟩ := ih (hd.trans hws) hI hrun
      exact ⟨ws ++ vs, hws.trans hvs, by rwa [← List.append_assoc]⟩
    | case4 found d a e' he hlt =>
      cases hrun
      obtain ⟨ws, hws, hI⟩ := (hstep found us d hd h).passes (some a) e he
      exact ⟨ws, hws, hlast _ _ _ hI⟩
  · intro e hrun
    fun_induction collectFrom step found d generalizing us with
    | case1 found d e' he =>
      cases hrun
      exact (hstep found us d hd h).fails e he
    | case2 found d e' he => cases hrun
    | case3 found d a e' he hlt ih =>
      obtain ⟨ws, hws, hI⟩ := (hstep found us d hd h).passes (some a) e' he
      obtain ⟨vs, f, hvs, hP⟩ := ih (hd.trans hws) hI hrun
      exact ⟨ws ++ vs, f, hws.trans hvs, by rwa [← List.append_assoc]⟩
    | case4 found d a e' he hlt => cases hrun

/-- `runs_collectFrom` from the start. -/
theorem runs_collect
    (hstep : ∀ found us d, c.Passes us d → I found us d →
      Runs (step found) d (Stepped I J found us) fun e vs => P e (us ++ vs))
    (hlast : ∀ found us d, I found us d → J found us d) (h : I [] [] c) :
    Runs (collect step) c J P := runs_collectFrom hstep hlast (.refl c) h

/-! ## Characters -/

theorem runs_skip {ws : List Char} {n : Nat} (h : c.Passes ws (c.skip n)) :
    Runs (skip n) c (fun _ vs _ => vs = ws) P := by
  constructor
  · intro a d hrun
    cases hrun
    exact ⟨ws, h, rfl⟩
  · intro e hrun
    cases hrun

theorem runs_skip_of_head? {x : Char} (h : c.rest.head? = some x) :
    Runs (skip 1) c (fun _ ws _ => ws = [x]) P := runs_skip (Cursor.passes_skip_of_head? h)

/-- Past some characters that are next. -/
theorem runs_skip_leading {ws : List Char} (h : ws <+: c.rest) :
    Runs (skip ws.length) c (fun _ vs _ => vs = ws) P := by
  obtain ⟨rest, hrest⟩ := h
  refine runs_skip ⟨?_, ?_⟩
  · rw [Cursor.skip, ← hrest, List.drop_left]
  · rw [Cursor.skip, ← hrest, List.take_left]

theorem stops_dropWhile (p : Char → Bool) (cs : List Char) : Stops p (cs.dropWhile p) := by
  intro x xs h
  have hhead := List.head?_dropWhile_not p cs
  rw [h, List.head?_cons] at hhead
  simpa using hhead

theorem runs_skipWhile (p : Char → Bool) :
    Runs (set (c.skipWhile p)) c (fun _ ws d => ws = c.rest.takeWhile p ∧ d = c.skipWhile p ∧
      (∀ x ∈ ws, p x = true) ∧ Stops p d.rest) P :=
  runs_set (Cursor.passes_skipWhile c p)
    ⟨rfl, rfl, List.all_eq_true.mp List.all_takeWhile, stops_dropWhile p c.rest⟩

/-- Past blanks and one character more. -/
theorem runs_skipWhile_skip {x : Char} (h : (c.skipWhile isBlank).rest.head? = some x) :
    Runs (set ((c.skipWhile isBlank).skip 1)) c (fun _ ws _ => ∃ b, ws = b ++ [x] ∧ Blanks b) P :=
  runs_set ((Cursor.passes_skipWhile c isBlank).trans (Cursor.passes_skip_of_head? h))
    ⟨_, rfl, blanks_takeWhile _⟩

theorem runs_takeWhile (p : Char → Bool) :
    Runs (takeWhile p) c (fun s ws d => ws = s.toList ∧ Stops p d.rest) P := by
  refine Runs.get ((runs_skipWhile p).bind fun _ ws d _ h => .pure ?_)
  rw [List.append_nil, String.toList_ofList]
  exact ⟨h.1, h.2.2.2⟩

theorem runs_expect {x : Char} (h : ∀ found, P ⟨.characterExpected x found, c.here⟩ [] c) :
    Runs (expect x) c (fun _ ws _ => ws = [x]) P := by
  unfold expect
  refine Runs.peek ?_
  split
  · next hnext => exact runs_skip_of_head? hnext
  · exact runs_fail (h _)

theorem runs_skipBlanks :
    Runs skipBlanks c (fun parted ws d => Blanks ws ∧ (parted = true → ws ≠ []) ∧
      Stops isBlank d.rest) P := by
  refine ⟨fun parted d hrun => ?_, fun e hrun => by cases hrun⟩
  obtain ⟨ws, hws, hblanks, hparted⟩ :=
    (traces_skipBlanks (o := c) (c := c)).passes parted d (.refl c) hrun
  cases hrun
  exact ⟨ws, hws, hblanks, hparted, stops_dropWhile isBlank c.rest⟩

/-- A keyword is passed over, or nothing is. -/
theorem runs_keyword? (word : String) :
    Runs (keyword? word) c (fun found ws d =>
      (found = true → ws = '.' :: word.toList ∧ Stops isNameChar d.rest) ∧
        (found = false → ws = [])) P := by
  unfold keyword?
  refine Runs.get ?_
  split
  · next h =>
    obtain ⟨hlead, hend⟩ := Bool.and_eq_true_iff.mp h
    obtain ⟨rest, hrest⟩ := List.isPrefixOf_iff_prefix.mp hlead
    have hstops : Stops isNameChar rest := by
      rintro x xs rfl
      rw [← hrest, List.drop_left] at hend
      simpa using hend
    refine (runs_skip_leading ⟨rest, hrest⟩).bind ?_
    rintro _ _ d hd rfl
    have hsame : rest = d.rest := List.append_cancel_left (hrest.trans hd.1)
    refine .pure ⟨fun _ => ⟨by rw [List.append_nil], hsame ▸ hstops⟩, fun h => by cases h⟩
  · exact .pure ⟨by simp, fun _ => rfl⟩

end Scanner

end Phrasebook
