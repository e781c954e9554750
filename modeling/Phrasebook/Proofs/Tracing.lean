import Phrasebook.Proofs.Acceptance
import Phrasebook.Proofs.Placeholders

/-!
What scanners pass over, and where they fail.

`Scanner.Traces` says of a scanner, started at a cursor of a text, that it passes over characters
which are in a relation with what it gives, and that if it fails its error marks a stretch of the
text. It goes through binds, where the characters passed over are put together, and through
`collect`. Names and literals are found to be written forms of what they are read as.
-/

namespace Phrasebook

/-! ## Stretches of text -/

namespace Position

@[simp] theorem advance_offset (p : Position) (c : Char) :
    (p.advance c).offset = p.offset + c.utf8Size := by
  unfold advance
  split <;> rfl

end Position

namespace Cursor

/-- Some characters stand between two cursors of one text. -/
def Passes (c : Cursor) (ws : List Char) (d : Cursor) : Prop :=
  c.rest = ws ++ d.rest ∧ d.position = c.position.advanceOver ws

/-- The span is that of a stretch of the text from the cursor on. -/
def Marks (c : Cursor) (span : Span) : Prop :=
  ∃ d e, c.Reaches d ∧ d.Reaches e ∧ span = d.position.spanTo e.position.offset

theorem Passes.refl (c : Cursor) : c.Passes [] c := ⟨rfl, rfl⟩

theorem Passes.trans {c d e : Cursor} {ws vs : List Char} (h : c.Passes ws d)
    (h' : d.Passes vs e) : c.Passes (ws ++ vs) e := by
  obtain ⟨hrest, hposition⟩ := h
  obtain ⟨hrest', hposition'⟩ := h'
  exact ⟨by rw [hrest, hrest', List.append_assoc],
    by rw [hposition', hposition, Position.advanceOver_append]⟩

theorem Passes.reaches {c d : Cursor} {ws : List Char} (h : c.Passes ws d) : c.Reaches d := ⟨ws, h⟩

/-- One more character. -/
theorem Passes.cons {x : Char} {rest ws : List Char} {p : Position} {d : Cursor}
    (h : Cursor.Passes ⟨rest, p.advance x⟩ ws d) : Cursor.Passes ⟨x :: rest, p⟩ (x :: ws) d :=
  ⟨congrArg (x :: ·) h.1, h.2⟩

theorem passes_skipWhile (c : Cursor) (p : Char → Bool) :
    c.Passes (c.rest.takeWhile p) (c.skipWhile p) := ⟨List.takeWhile_append_dropWhile.symm, rfl⟩

theorem passes_skip (c : Cursor) (n : Nat) : c.Passes (c.rest.take n) (c.skip n) :=
  ⟨(List.take_append_drop n c.rest).symm, rfl⟩

/-- Past what stands next. -/
theorem passes_skip_of_head? {c : Cursor} {x : Char} (h : c.rest.head? = some x) :
    c.Passes [x] (c.skip 1) := by
  obtain ⟨rest, p⟩ := c
  cases rest with
  | nil => cases h
  | cons y rest =>
    cases h
    exact passes_skip _ 1

theorem Marks.of_reaches {c d : Cursor} {span : Span} (h : c.Reaches d) (hd : d.Marks span) :
    c.Marks span := by
  obtain ⟨e, e', he, he', hspan⟩ := hd
  exact ⟨e, e', h.trans he, he', hspan⟩

theorem marks_here (c : Cursor) : c.Marks c.here := by
  refine ⟨c, c.skip 1, .refl c, reaches_skip c 1, ?_⟩
  obtain ⟨rest, p⟩ := c
  cases rest with
  | nil => rfl
  | cons x rest => simp [here, skip, Position.advanceOver]

theorem marks_here_of_reaches {c d : Cursor} (h : c.Reaches d) : c.Marks d.here :=
  d.marks_here.of_reaches h

end Cursor

/-! ## Things in a row -/

/-- A step took one thing in its written form, or nothing at all. -/
def Took {α : Type} (W : α → List Char → Prop) : Option α → List Char → Prop
  | some a, ws => W a ws
  | none, ws => ws = []

theorem WrittenAll.append {α : Type} {W : α → List Char → Prop} {as bs : List α}
    {ws vs : List Char} (h : WrittenAll W as ws) (h' : WrittenAll W bs vs) :
    WrittenAll W (as ++ bs) (ws ++ vs) := by
  induction h with
  | nil => exact h'
  | cons ha _ ih =>
    rw [List.append_assoc]
    exact .cons ha ih

theorem WrittenAll.single {α : Type} {W : α → List Char → Prop} {a : α} {ws : List Char}
    (h : W a ws) : WrittenAll W [a] ws := by
  have hall := WrittenAll.cons h .nil
  rwa [List.append_nil] at hall

theorem WrittenAll.concat {α : Type} {W : α → List Char → Prop} {as : List α} {a : α}
    {ws vs : List Char} (h : WrittenAll W as ws) (ha : W a vs) :
    WrittenAll W (as ++ [a]) (ws ++ vs) := h.append (.single ha)

theorem blanks_takeWhile (cs : List Char) : Blanks (cs.takeWhile isBlank) :=
  List.all_eq_true.mp List.all_takeWhile

namespace Scanner

variable {α β : Type} {o c : Cursor} {s : Scanner α} {g : α → Scanner β}
  {R : α → List Char → Prop} {S : β → List Char → Prop}

/-! ## Traces -/

/-- Started at a cursor of the text of `o`, the scanner passes over characters that are in a
relation with what it gives, or its error marks a stretch of the text. -/
structure Traces (o : Cursor) (s : Scanner α) (c : Cursor) (R : α → List Char → Prop) : Prop where
  passes : ∀ a d, o.Reaches c → s c = .ok (a, d) → ∃ ws, c.Passes ws d ∧ R a ws
  marks : ∀ e, o.Reaches c → s c = .error e → o.Marks e.span

theorem Traces.intro (h : o.Reaches c → Traces o s c R) : Traces o s c R :=
  ⟨fun a d ho => (h ho).passes a d ho, fun e ho => (h ho).marks e ho⟩

/-- What follows from where the scanner starts and from what it passes over. -/
theorem Traces.imp_of_passes {R' : α → List Char → Prop} (h : Traces o s c R)
    (hR : ∀ a ws d, o.Reaches c → c.Passes ws d → R a ws → R' a ws) : Traces o s c R' := by
  refine ⟨fun a d ho hrun => ?_, h.marks⟩
  obtain ⟨ws, hws, ha⟩ := h.passes a d ho hrun
  exact ⟨ws, hws, hR a ws d ho hws ha⟩

theorem Traces.imp {R' : α → List Char → Prop} (h : Traces o s c R)
    (hR : ∀ a ws, R a ws → R' a ws) : Traces o s c R' :=
  h.imp_of_passes fun a ws _ _ _ ha => hR a ws ha

/-- What is known of the scanner's result and of the position after it. -/
theorem Traces.ends {T : α → Position → Prop} (h : Traces o s c R)
    (hs : Ensures s c fun a d => T a d.position) :
    Traces o s c fun a ws => R a ws ∧ T a (c.position.advanceOver ws) := by
  refine ⟨fun a d ho hrun => ?_, h.marks⟩
  obtain ⟨ws, hws, ha⟩ := h.passes a d ho hrun
  exact ⟨ws, hws, ha, hws.2 ▸ hs a d hrun⟩

/-- What the scanner yields, it gives here too. -/
theorem Traces.yields {P : α → Prop} (h : Traces o s c R) (hs : Yields s P) :
    Traces o s c fun a ws => R a ws ∧ P a := by
  refine ⟨fun a d ho hrun => ?_, h.marks⟩
  obtain ⟨ws, hws, ha⟩ := h.passes a d ho hrun
  exact ⟨ws, hws, ha, hs c a d hrun⟩

theorem Traces.pure {a : α} (h : R a []) : Traces o (pure a) c R := by
  refine ⟨fun a' d _ hrun => ?_, fun e _ hrun => ?_⟩
  · cases hrun
    exact ⟨[], .refl c, h⟩
  · cases hrun

theorem Traces.bind (hs : Traces o s c R)
    (hg : ∀ a ws d, c.Passes ws d → R a ws → Traces o (g a) d fun b vs => S b (ws ++ vs)) :
    Traces o (s >>= g) c S := by
  constructor
  · intro b e ho hrun
    obtain ⟨⟨a, d⟩, hfirst, hrest⟩ := Outcome.bind_eq_ok hrun
    obtain ⟨ws, hws, ha⟩ := hs.passes a d ho hfirst
    obtain ⟨vs, hvs, hb⟩ := (hg a ws d hws ha).passes b e (ho.trans hws.reaches) hrest
    exact ⟨ws ++ vs, hws.trans hvs, hb⟩
  · intro e ho hrun
    rcases Outcome.bind_eq_error hrun with hfirst | ⟨⟨a, d⟩, hfirst, hrest⟩
    · exact hs.marks e ho hfirst
    · obtain ⟨ws, hws, ha⟩ := hs.passes a d ho hfirst
      exact (hg a ws d hws ha).marks e (ho.trans hws.reaches) hrest

theorem Traces.peek {g : Option Char → Scanner β} (h : Traces o (g c.rest.head?) c S) :
    Traces o (peek >>= g) c S := ⟨h.passes, h.marks⟩

theorem Traces.get {g : Cursor → Scanner β} (h : Traces o (g c) c S) :
    Traces o (get >>= g) c S := ⟨h.passes, h.marks⟩

theorem Traces.position {g : Position → Scanner β} (h : Traces o (g c.position) c S) :
    Traces o (position >>= g) c S := ⟨h.passes, h.marks⟩

theorem Traces.spanFrom {g : Span → Scanner β} {p : Position}
    (h : Traces o (g (p.spanTo c.position.offset)) c S) :
    Traces o (spanFrom p >>= g) c S := ⟨h.passes, h.marks⟩

theorem Traces.set {g : PUnit → Scanner β} {ws : List Char} {d : Cursor} (hd : c.Passes ws d)
    (h : Traces o (g ⟨⟩) d fun b vs => S b (ws ++ vs)) : Traces o (set d >>= g) c S := by
  refine ⟨fun b e ho hrun => ?_, fun e ho hrun => h.marks e (ho.trans hd.reaches) hrun⟩
  obtain ⟨vs, hvs, hb⟩ := h.passes b e (ho.trans hd.reaches) hrun
  exact ⟨ws ++ vs, hd.trans hvs, hb⟩

theorem Traces.lift {x : Except SyntaxError α} (he : ∀ e, x = .error e → c.Marks e.span)
    (h : ∀ a, x = .ok a → Traces o (g a) c S) : Traces o ((liftM x : Scanner α) >>= g) c S := by
  cases x with
  | error e =>
    refine ⟨fun b d _ hrun => ?_, fun e' ho hrun => ?_⟩
    · cases hrun
    · cases hrun
      exact (he e rfl).of_reaches ho
  | ok a => exact ⟨(h a rfl).passes, (h a rfl).marks⟩

theorem traces_failAt (fault : SyntaxFault) {span : Span} (h : o.Marks span) :
    Traces o (failAt fault span) c R := by
  refine ⟨fun a d _ hrun => ?_, fun e _ hrun => ?_⟩
  · cases hrun
  · cases hrun
    exact h

theorem traces_fail (fault : SyntaxFault) : Traces o (fail fault) c R :=
  Traces.get (Traces.intro fun ho => traces_failAt fault (Cursor.marks_here_of_reaches ho))

/-- A scanner after a check. -/
theorem Traces.guard {b : Prop} [Decidable b] {fault : SyntaxFault} {rest : PUnit → Scanner β}
    (h : ¬ b → Traces o (rest ⟨⟩) c S) :
    Traces o (if b then fail fault >>= rest else rest ⟨⟩) c S := by
  split
  · exact (traces_fail (R := fun _ _ => False) fault).bind fun _ _ _ _ hfalse => hfalse.elim
  · next hb => exact h hb

/-! ## Repetition -/

/-- What each step keeps of the things found and the characters passed over, a whole repetition
keeps. -/
theorem traces_collectFrom {step : List α → Scanner (Option α)}
    {I : List α → List Char → Prop}
    (hstep : ∀ found us d, c.Passes us d → I found us → Traces o (step found) d fun a? ws =>
      I (found ++ a?.toList) (us ++ ws))
    {found : List α} {us : List Char} {d : Cursor} (hd : c.Passes us d) (h : I found us) :
    Traces o (collectFrom step found) d fun as ws => I as (us ++ ws) := by
  constructor
  · intro as e ho hrun
    fun_induction collectFrom step found d generalizing us with
    | case1 found d e' he => cases hrun
    | case2 found d e' he =>
      cases hrun
      obtain ⟨ws, hws, hI⟩ := (hstep _ us d hd h).passes none e ho he
      exact ⟨ws, hws, by simpa using hI⟩
    | case3 found d a e' he hlt ih =>
      obtain ⟨ws, hws, hI⟩ := (hstep found us d hd h).passes (some a) e' ho he
      obtain ⟨vs, hvs, hI'⟩ := ih (hd.trans hws) hI (ho.trans hws.reaches) hrun
      exact ⟨ws ++ vs, hws.trans hvs, by rwa [← List.append_assoc]⟩
    | case4 found d a e' he hlt =>
      cases hrun
      exact (hstep found us d hd h).passes (some a) e ho he
  · intro e ho hrun
    fun_induction collectFrom step found d generalizing us with
    | case1 found d e' he =>
      cases hrun
      exact (hstep found us d hd h).marks e ho he
    | case2 found d e' he => cases hrun
    | case3 found d a e' he hlt ih =>
      obtain ⟨ws, hws, hI⟩ := (hstep found us d hd h).passes (some a) e' ho he
      exact ih (hd.trans hws) hI (ho.trans hws.reaches) hrun
    | case4 found d a e' he hlt => cases hrun

/-- `traces_collectFrom` from the start. -/
theorem traces_collect {step : List α → Scanner (Option α)} {I : List α → List Char → Prop}
    (hstep : ∀ found us d, c.Passes us d → I found us → Traces o (step found) d fun a? ws =>
      I (found ++ a?.toList) (us ++ ws))
    (h : I [] []) : Traces o (collect step) c I :=
  traces_collectFrom hstep (.refl c) h

theorem traces_collect_written {step : List α → Scanner (Option α)} {W : α → List Char → Prop}
    (hstep : ∀ found d, Traces o (step found) d (Took W)) :
    Traces o (collect step) c (WrittenAll W) := by
  refine traces_collect (fun found us d _ hfound => (hstep found d).imp ?_) .nil
  rintro (_ | a) ws hws
  · cases hws
    simpa using hfound
  · exact WrittenAll.concat hfound hws

/-- When each thing that a step reads has a property, all that are read have it. -/
theorem traces_collect_forall {step : Scanner (Option α)} {P : α → Prop}
    (hstep : ∀ d, Traces o step d fun a? _ => ∀ a ∈ a?, P a) :
    Traces o (collect fun _ => step) c fun as _ => ∀ a ∈ as, P a := by
  refine traces_collect (fun found us d _ hfound => (hstep d).imp ?_) (by simp)
  intro a? ws ha
  exact List.forall_mem_append.mpr ⟨hfound, fun a hmem => ha a (by simpa using hmem)⟩

/-- A step that passes over something, whatever it reads, does so when it is repeated. -/
theorem traces_collect_any {step : Scanner (Option α)}
    (hstep : ∀ d, Traces o step d fun _ _ => True) :
    Traces o (collect fun _ => step) c fun _ _ => True :=
  traces_collect (fun _ _ d _ _ => hstep d) trivial

/-! ## Characters -/

theorem traces_skip_of_head? {x : Char} (h : c.rest.head? = some x) :
    Traces o (skip 1) c fun _ ws => ws = [x] := by
  refine ⟨fun a d _ hrun => ?_, fun e _ hrun => by cases hrun⟩
  cases hrun
  exact ⟨[x], Cursor.passes_skip_of_head? h, rfl⟩

theorem traces_skip (n : Nat) : Traces o (skip n) c fun _ _ => True := by
  refine ⟨fun a d _ hrun => ?_, fun e _ hrun => by cases hrun⟩
  cases hrun
  exact ⟨_, Cursor.passes_skip c n, trivial⟩

theorem traces_startsWith (ws : List Char) :
    Traces o (startsWith ws) c fun _ vs => vs = [] := by
  refine ⟨fun a d _ hrun => ?_, fun e _ hrun => by cases hrun⟩
  cases hrun
  exact ⟨[], .refl c, rfl⟩

theorem traces_skipBlanks :
    Traces o skipBlanks c fun parted ws => Blanks ws ∧ (parted = true → ws ≠ []) := by
  refine ⟨fun parted d _ hrun => ?_, fun e _ hrun => by cases hrun⟩
  cases hrun
  refine ⟨_, Cursor.passes_skipWhile c isBlank, blanks_takeWhile _, fun hparted => ?_⟩
  obtain ⟨rest, p⟩ := c
  cases rest with
  | nil => cases hparted
  | cons x rest =>
    have hx : isBlank x = true := hparted
    simp [hx]

theorem traces_takeWhile (p : Char → Bool) :
    Traces o (takeWhile p) c fun s ws => ws = s.toList ∧ ∀ x ∈ ws, p x = true := by
  refine ⟨fun s d _ hrun => ?_, fun e _ hrun => by cases hrun⟩
  cases hrun
  refine ⟨_, Cursor.passes_skipWhile c p, ?_, List.all_eq_true.mp List.all_takeWhile⟩
  rw [String.toList_ofList]

theorem traces_expect (x : Char) : Traces o (expect x) c fun _ ws => ws = [x] := by
  unfold expect
  refine Traces.peek ?_
  split
  · next h => exact traces_skip_of_head? h
  · exact traces_fail _

/-! ## Names -/

theorem traces_name : Traces o name c fun s ws => ws = s.toList := by
  unfold name
  refine Traces.peek ?_
  split
  · exact traces_fail _
  · split
    · exact (traces_takeWhile isNameChar).imp fun s ws h => h.1
    · exact traces_fail _

theorem traces_identifier : Traces o identifier c fun s ws => ws = s.toList := by
  unfold identifier
  refine traces_name.bind fun first ws d _ hws => Traces.get ?_
  have hfirst : Traces o (pure first) d fun s vs => ws ++ vs = s.toList :=
    .pure (by rw [List.append_nil, hws])
  split
  · next x rest hrest =>
    split
    · have hcolon : d.rest.head? = some ':' := by rw [hrest]; rfl
      refine (traces_skip_of_head? hcolon).bind fun _ us e _ hus => ?_
      refine traces_name.bind fun second vs _ _ hvs => .pure ?_
      simp [hws, hus, hvs]
    · exact hfirst
  · exact hfirst

/-! ## Literals -/

/-- A character that neither the end of the text nor another character may follow. -/
theorem ne_of_unmatched {x y : Char} {rest : List Char} (hlone : x = y → rest = [] → False)
    (hpair : ∀ z zs, x = y → rest = z :: zs → False) : x ≠ y := by
  intro heq
  cases rest with
  | nil => exact hlone heq rfl
  | cons z zs => exact hpair z zs heq rfl

theorem passes_of_quoted {cs run : List Char} {p : Position} {d : Cursor}
    (h : quoted cs p = .ok (run, d)) :
    ∃ ws, Escaped PlainInBars run ws ∧ Cursor.Passes ⟨cs, p⟩ (ws ++ ['|']) d := by
  fun_induction quoted cs p generalizing run with
  | case1 p => cases h
  | case2 rest p =>
    cases h
    exact ⟨[], .nil, rfl, rfl⟩
  | case3 p => cases h
  | case4 x rest p q hx =>
    rename_i ih
    obtain ⟨⟨run', d'⟩, hrest, h⟩ := Outcome.bind_eq_ok h
    cases h
    obtain ⟨ws, hws, hpasses⟩ := ih hrest
    exact ⟨'\\' :: x :: ws, .escaped hx hws, hpasses.cons.cons⟩
  | case5 x rest p hx => cases h
  | case6 x rest p hbar hlone hpair ih =>
    obtain ⟨⟨run', d'⟩, hrest, h⟩ := Outcome.bind_eq_ok h
    cases h
    obtain ⟨ws, hws, hpasses⟩ := ih hrest
    exact ⟨x :: ws, .plain ⟨hbar, ne_of_unmatched hlone hpair⟩ hws, hpasses.cons⟩

theorem marks_of_quoted {cs : List Char} {p : Position} {e : SyntaxError}
    (h : quoted cs p = .error e) : Cursor.Marks ⟨cs, p⟩ e.span := by
  fun_induction quoted cs p with
  | case1 p =>
    cases h
    exact Cursor.marks_here _
  | case2 rest p => cases h
  | case3 p =>
    cases h
    exact Cursor.marks_here_of_reaches (Cursor.Passes.refl _).cons.reaches
  | case4 x rest p q hx =>
    rename_i ih
    rcases Outcome.bind_eq_error h with hrest | ⟨_, -, h⟩
    · exact (ih hrest).of_reaches (Cursor.Passes.refl _).cons.cons.reaches
    · cases h
  | case5 x rest p hx =>
    cases h
    exact Cursor.marks_here_of_reaches (Cursor.Passes.refl _).cons.cons.reaches
  | case6 x rest p hbar hlone hpair ih =>
    rcases Outcome.bind_eq_error h with hrest | ⟨_, -, h⟩
    · exact (ih hrest).of_reaches (Cursor.Passes.refl _).cons.reaches
    · cases h

theorem traces_literal : Traces o literal c fun s ws => LiteralWritten isLiteralChar s ws := by
  unfold literal
  refine Traces.get ?_
  split
  · next rest hrest =>
    obtain ⟨_, p⟩ := c
    cases hrest
    have hbar : Cursor.Passes ⟨'|' :: rest, p⟩ ['|'] ⟨rest, p.advance '|'⟩ :=
      (Cursor.Passes.refl _).cons
    refine Traces.lift (fun e he => (marks_of_quoted he).of_reaches hbar.reaches) ?_
    rintro ⟨run, d⟩ hrun
    obtain ⟨ws, hws, hpasses⟩ := passes_of_quoted hrun
    refine Traces.set (hbar.trans hpasses) (.pure ?_)
    rw [List.append_nil]
    refine .bars ?_
    rwa [String.toList_ofList]
  · refine (traces_takeWhile isLiteralChar).bind fun s ws d _ hws => ?_
    split
    · exact traces_fail _
    · next hne =>
      refine .pure ?_
      obtain ⟨rfl, hall⟩ := hws
      rw [List.append_nil]
      cases hs : s.toList with
      | nil => exact absurd (String.isEmpty_iff.mpr (String.toList_eq_nil_iff.mp hs)) hne
      | cons x xs =>
        rw [hs] at hall
        rw [← hs]
        exact .bare hs (hall x List.mem_cons_self) hall

end Scanner

end Phrasebook
