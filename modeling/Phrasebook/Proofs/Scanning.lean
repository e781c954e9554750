import Phrasebook.Proofs.Grammar

/-!
Scanners read the written forms of names and literals.

`Scanner.Reads` says that a scanner, from wherever it starts, takes one text to what is left of
it and gives a certain result, up to a view of the result that may forget spans. It goes through
binds, and through `collect`: there, a step that reads each of some things in turn reads them
all. Names and literals end where a character cannot continue them, which is what `Stops` and
`Delimited` say of the text that is left.
-/

namespace Phrasebook

/-! ## Where pieces end -/

/-- The text does not go on with a character of the class. -/
def Stops (p : Char → Bool) (rest : List Char) : Prop := ∀ c cs, rest = c :: cs → p c = false

theorem stops_nil (p : Char → Bool) : Stops p [] := fun _ _ h => by cases h

theorem stops_cons {p : Char → Bool} {c : Char} {cs : List Char} (h : p c = false) :
    Stops p (c :: cs) := by
  intro d ds hd
  cases hd
  exact h

theorem takeWhile_of_stops {p : Char → Bool} {ws rest : List Char} (h : ∀ c ∈ ws, p c = true)
    (hr : Stops p rest) : (ws ++ rest).takeWhile p = ws ∧ (ws ++ rest).dropWhile p = rest := by
  induction ws with
  | nil =>
    cases rest with
    | nil => exact ⟨rfl, rfl⟩
    | cons c cs => simp [hr c cs rfl]
  | cons c ws ih =>
    obtain ⟨htake, hdrop⟩ := ih fun d hd => h d (List.mem_cons_of_mem _ hd)
    simp [h c List.mem_cons_self, htake, hdrop]

/-- What may stand right after a name, an identifier or a literal without bars. -/
def isDelimiter (c : Char) : Bool :=
  isBlank c || c == '@' || c == '/' || c == '=' || c == '\x7b' || c == '\x7d'

theorem isDelimiter_of_isBlank {c : Char} (h : isBlank c = true) : isDelimiter c = true := by
  simp [isDelimiter, h]

theorem isLiteralChar_of_isDelimiter {c : Char} (h : isDelimiter c = true) :
    isLiteralChar c = false ∧ c ≠ ':' := by
  simp only [isDelimiter, isBlank, Bool.or_eq_true, beq_iff_eq] at h
  rcases h with (((((((((((rfl | rfl) | rfl) | rfl) | rfl) | rfl) | rfl) | rfl) | rfl) | rfl) |
    rfl) | rfl) | rfl <;> decide

theorem isLiteralChar_of_isNameChar {c : Char} (h : isNameChar c = true) :
    isLiteralChar c = true := by simp [isLiteralChar, h]

theorem isNameChar_of_isNameStart {c : Char} (h : isNameStart c = true) : isNameChar c = true := by
  simp [isNameChar, h]

theorem isBlank_eq_false_of_isLiteralChar {c : Char} (h : isLiteralChar c = true) :
    isBlank c = false := by
  cases hb : isBlank c with
  | false => rfl
  | true =>
    rw [(isLiteralChar_of_isDelimiter (isDelimiter_of_isBlank hb)).1] at h
    cases h

theorem blanks_nil : Blanks [] := fun _ h => by cases h

theorem Blanks.append {b b' : List Char} (hb : Blanks b) (hb' : Blanks b') : Blanks (b ++ b') :=
  List.forall_mem_append.mpr ⟨hb, hb'⟩

/-- The text goes on with a delimiter. -/
def Delimited (rest : List Char) : Prop := ∃ c cs, rest = c :: cs ∧ isDelimiter c = true

theorem Delimited.cons {c : Char} {cs : List Char} (h : isDelimiter c = true) :
    Delimited (c :: cs) := ⟨c, cs, rfl, h⟩

/-- Blanks before a delimited text keep it delimited. -/
theorem Delimited.blanks {b rest : List Char} (hb : Blanks b) (h : Delimited rest) :
    Delimited (b ++ rest) := by
  cases b with
  | nil => exact h
  | cons c b => exact .cons (isDelimiter_of_isBlank (hb c List.mem_cons_self))

/-- Blanks delimit whatever follows them. -/
theorem Delimited.of_blanks {b rest : List Char} (hb : Blanks b) (hne : b ≠ []) :
    Delimited (b ++ rest) := by
  cases b with
  | nil => exact absurd rfl hne
  | cons c b => exact .cons (isDelimiter_of_isBlank (hb c List.mem_cons_self))

theorem Delimited.stops_literal {rest : List Char} (h : Delimited rest) :
    Stops isLiteralChar rest := by
  obtain ⟨c, cs, rfl, hc⟩ := h
  exact stops_cons (isLiteralChar_of_isDelimiter hc).1

theorem Delimited.stops_name {rest : List Char} (h : Delimited rest) : Stops isNameChar rest := by
  intro c cs hrest
  have hliteral := h.stops_literal c cs hrest
  cases hname : isNameChar c with
  | false => rfl
  | true => rw [isLiteralChar_of_isNameChar hname] at hliteral; cases hliteral

namespace Scanner

variable {α β γ δ : Type} {cs mid rest : List Char}

/-! ## Reading -/

/-- From any position, the scanner takes a text to what is left of it and gives what looks like
`a`. -/
def Reads (view : α → β) (s : Scanner α) (cs rest : List Char) (a : α) : Prop :=
  ∀ p, ∃ a' q, view a' = view a ∧ s ⟨cs, p⟩ = .ok (a', ⟨rest, q⟩)

theorem Reads.pure {view : α → β} {a' a : α} (h : view a' = view a) :
    Reads view (pure a') cs cs a := fun p => ⟨a', p, h, rfl⟩

theorem Reads.bind {look : α → δ} {view : β → γ} {s : Scanner α} {g : α → Scanner β} {a : α}
    {b : β} (hs : Reads look s cs mid a)
    (hg : ∀ a', look a' = look a → Reads view (g a') mid rest b) :
    Reads view (s >>= g) cs rest b := by
  intro p
  obtain ⟨a', q, ha, hrun⟩ := hs p
  obtain ⟨b', r, hb, hrun'⟩ := hg a' ha q
  refine ⟨b', r, hb, ?_⟩
  change (s ⟨cs, p⟩ >>= fun x => g x.1 x.2) = _
  rw [hrun]
  exact hrun'

/-- A bind after a scanner whose result is known. -/
theorem Reads.next {view : β → γ} {s : Scanner α} {g : α → Scanner β} {a : α} {b : β}
    (hs : Reads id s cs mid a) (hg : Reads view (g a) mid rest b) :
    Reads view (s >>= g) cs rest b :=
  hs.bind fun a' ha => by cases ha; exact hg

theorem Reads.get {view : β → γ} {g : Cursor → Scanner β} {b : β}
    (h : ∀ p, Reads view (g ⟨cs, p⟩) cs rest b) : Reads view (get >>= g) cs rest b :=
  fun p => h p p

theorem Reads.lift {view : β → γ} {x : Except SyntaxError α} {g : α → Scanner β} {a : α} {b : β}
    (hx : x = .ok a) (h : Reads view (g a) cs rest b) :
    Reads view ((liftM x : Scanner α) >>= g) cs rest b := by
  subst hx
  exact h

theorem Reads.set {view : β → γ} {g : PUnit → Scanner β} {p : Position} {b : β}
    (h : Reads view (g ⟨⟩) mid rest b) : Reads view (set (Cursor.mk mid p) >>= g) cs rest b :=
  fun _ => h p

theorem reads_peek : Reads id peek cs cs cs.head? := fun p => ⟨_, p, rfl, rfl⟩

theorem reads_skip (n : Nat) : Reads id (skip n) cs (cs.drop n) () := fun _ => ⟨(), _, rfl, rfl⟩

theorem reads_skip_append (ws : List Char) :
    Reads id (skip ws.length) (ws ++ rest) rest () := by
  intro p
  refine ⟨(), p.advanceOver ((ws ++ rest).take ws.length), rfl, ?_⟩
  change Except.ok ((), Cursor.skip ⟨ws ++ rest, p⟩ ws.length) = _
  rw [Cursor.skip, List.drop_left]

theorem reads_startsWith (ws : List Char) :
    Reads id (startsWith ws) cs cs (ws.isPrefixOf cs) := fun p => ⟨_, p, rfl, rfl⟩

theorem reads_position : Reads (fun _ => ()) position cs cs .start := fun p => ⟨p, p, rfl, rfl⟩

theorem reads_spanFrom (p : Position) : Reads (fun _ => ()) (spanFrom p) cs cs .nowhere :=
  fun q => ⟨_, q, rfl, rfl⟩

theorem reads_skipBlanks_all (cs : List Char) :
    Reads id skipBlanks cs (cs.dropWhile isBlank) (cs.head?.any isBlank) :=
  fun p => ⟨_, p.advanceOver (cs.takeWhile isBlank), rfl, rfl⟩

theorem reads_skipBlanks {b : List Char} (hb : Blanks b) (hr : Stops isBlank rest) :
    Reads id skipBlanks (b ++ rest) rest (!b.isEmpty) := by
  have hany : (b ++ rest).head?.any isBlank = !b.isEmpty := by
    cases b with
    | nil =>
      cases rest with
      | nil => rfl
      | cons c cs => simp [hr c cs rfl]
    | cons c b => simp [hb c List.mem_cons_self]
  have hread := reads_skipBlanks_all (b ++ rest)
  rwa [(takeWhile_of_stops hb hr).2, hany] at hread

theorem reads_takeWhile {p : Char → Bool} {ws : List Char} (h : ∀ c ∈ ws, p c = true)
    (hr : Stops p rest) : Reads id (takeWhile p) (ws ++ rest) rest (String.ofList ws) := by
  intro q
  obtain ⟨htake, hdrop⟩ := takeWhile_of_stops h hr
  refine ⟨String.ofList ws, q.advanceOver ws, rfl, ?_⟩
  change Except.ok (String.ofList ((ws ++ rest).takeWhile p),
    Cursor.skipWhile ⟨ws ++ rest, q⟩ p) = _
  rw [Cursor.skipWhile, htake, hdrop]

theorem reads_expect (c : Char) : Reads id (expect c) (c :: rest) rest () := by
  unfold expect
  refine reads_peek.next ?_
  rw [List.head?_cons, if_pos rfl]
  exact reads_skip 1

/-! ## Names -/

theorem reads_name {s : String} (h : IsName s) (hr : Stops isNameChar rest) :
    Reads id name (s.toList ++ rest) rest s := by
  obtain ⟨c, ws, hs, hc, hws⟩ := h
  have hall : ∀ d ∈ s.toList, isNameChar d = true := by
    rw [hs]
    exact List.forall_mem_cons.mpr ⟨isNameChar_of_isNameStart hc, hws⟩
  have htake := reads_takeWhile hall hr
  rw [String.ofList_toList] at htake
  unfold name
  refine reads_peek.next ?_
  rw [hs, List.cons_append] at htake ⊢
  simp only [List.head?_cons, hc, if_true]
  exact htake

theorem reads_identifier {s : String} (h : IsIdentifier s) (hr : Delimited rest) :
    Reads id identifier (s.toList ++ rest) rest s := by
  unfold identifier
  rcases h with h | ⟨space, local_, hspace, hlocal, rfl⟩
  · refine (reads_name h hr.stops_name).next (Reads.get fun p => ?_)
    obtain ⟨c, cs, rfl, hc⟩ := hr
    dsimp only
    split
    · next heq =>
      cases heq
      exact absurd rfl (isLiteralChar_of_isDelimiter hc).2
    · exact .pure rfl
  · have hsplit : (space ++ ":" ++ local_).toList ++ rest =
        space.toList ++ (':' :: (local_.toList ++ rest)) := by simp
    rw [hsplit]
    refine (reads_name hspace (stops_cons (by decide))).next (Reads.get fun p => ?_)
    have hname := reads_name hlocal hr.stops_name
    obtain ⟨c, cs, hs, hc, -⟩ := hlocal
    rw [hs, List.cons_append] at hname ⊢
    split
    · next heq =>
      cases heq
      rw [if_pos hc]
      refine (reads_skip 1).next (hname.next ?_)
      exact .pure rfl
    · next hne => exact absurd rfl (hne _ _)

/-! ## Literals -/

theorem quoted_of_escaped {ws : List Char} (h : Escaped PlainInBars cs ws) (rest : List Char)
    (p : Position) : ∃ q, quoted (ws ++ '|' :: rest) p = .ok (cs, ⟨rest, q⟩) := by
  induction h generalizing p with
  | nil => exact ⟨p.advance '|', by simp [quoted]⟩
  | @plain c cs ws hc _ ih =>
    obtain ⟨q, hq⟩ := ih (p.advance c)
    refine ⟨q, ?_⟩
    rw [List.cons_append, quoted]
    · rw [hq]
      rfl
    · exact hc.1
    · exact fun h => absurd h hc.2
    · exact fun _ _ h => absurd h hc.2
  | @escaped c cs ws hc _ ih =>
    obtain ⟨q, hq⟩ := ih ((p.advance '\\').advance c)
    refine ⟨q, ?_⟩
    simp only [List.cons_append, quoted, hc, if_true, hq]
    rfl

/-- Between bars, a literal is read whatever comes after it. -/
theorem reads_literal_bars {s : String} {ws : List Char} (h : Escaped PlainInBars s.toList ws) :
    Reads id literal ('|' :: (ws ++ ['|']) ++ rest) rest s := by
  unfold literal
  refine Reads.get fun p => ?_
  obtain ⟨q, hq⟩ := quoted_of_escaped h rest (p.advance '|')
  rw [List.cons_append, List.append_assoc, List.singleton_append]
  split
  · next heq =>
    cases heq
    refine Reads.lift hq (Reads.set (.pure ?_))
    exact String.ofList_toList
  · next hne => exact absurd rfl (hne _)

/-- Without bars, a literal is read up to where none can go on. -/
theorem reads_literal_bare {s : String} {c : Char} {cs : List Char} (hs : s.toList = c :: cs)
    (hall : ∀ d ∈ c :: cs, isLiteralChar d = true) (hr : Stops isLiteralChar rest) :
    Reads id literal (s.toList ++ rest) rest s := by
  rw [← hs] at hall
  have htake := reads_takeWhile hall hr
  rw [String.ofList_toList] at htake
  have hnonempty : s.isEmpty = false := by
    cases hempty : s.isEmpty with
    | false => rfl
    | true =>
      rw [String.isEmpty_iff] at hempty
      rw [hempty] at hs
      cases hs
  unfold literal
  refine Reads.get fun p => ?_
  split
  · next heq =>
    -- a bar is no character of a literal without bars
    rw [hs] at heq hall
    cases heq
    exact absurd (hall '|' List.mem_cons_self) (by decide)
  · refine htake.next ?_
    rw [if_neg (by simp [hnonempty])]
    exact .pure rfl

theorem reads_literal {start : Char → Bool} {s : String} {ws : List Char}
    (h : LiteralWritten start s ws) (hr : Stops isLiteralChar rest) :
    Reads id literal (ws ++ rest) rest s := by
  cases h with
  | bars h => exact reads_literal_bars h
  | bare hs _ hall => exact reads_literal_bare hs hall hr

/-! ## Repetition -/

variable {view : α → β} {step : List α → Scanner (Option α)} {rest' : List Char}

theorem reads_collectFrom_stop {found : List α} (h : Reads id (step found) cs rest none) :
    Reads (List.map view) (collectFrom step found) cs rest found := by
  intro p
  obtain ⟨a, q, ha, hrun⟩ := h p
  cases ha
  refine ⟨found, q, rfl, ?_⟩
  rw [collectFrom, hrun]

theorem reads_collectFrom_step {found as : List α} {a : α}
    (h : Reads (Option.map view) (step found) cs mid (some a)) (hlt : mid.length < cs.length)
    (hrest : ∀ a', view a' = view a →
      Reads (List.map view) (collectFrom step (found ++ [a'])) mid rest (found ++ a' :: as)) :
    Reads (List.map view) (collectFrom step found) cs rest (found ++ a :: as) := by
  intro p
  obtain ⟨a?, q, ha, hrun⟩ := h p
  obtain ⟨a', rfl, hview⟩ := Option.map_eq_some_iff.mp ha
  obtain ⟨as', r, has, hrun'⟩ := hrest a' hview q
  refine ⟨as', r, ?_, ?_⟩
  · rw [has, List.map_append, List.map_append, List.map_cons, List.map_cons, hview]
  · rw [collectFrom, hrun]
    dsimp only
    rw [if_pos hlt]
    exact hrun'

/-- A step that reads each thing, for as long as the things found and those to come are as they
should be, and that stops after the last one, reads them all. -/
theorem reads_collectFrom (view : α → β) {W : α → List Char → Prop}
    {G : List α → List α → Prop}
    (hstep : ∀ found a as ws vs, G found (a :: as) → W a ws → WrittenAll W as vs →
      ws ≠ [] ∧ Reads (Option.map view) (step found) (ws ++ (vs ++ rest)) (vs ++ rest) (some a))
    (hgood : ∀ found a a' as, G found (a :: as) → view a' = view a → G (found ++ [a']) as)
    (hstop : ∀ found, G found [] → Reads id (step found) rest rest' none)
    {as : List α} {ws : List Char} (h : WrittenAll W as ws) {found : List α}
    (hg : G found as) :
    Reads (List.map view) (collectFrom step found) (ws ++ rest) rest' (found ++ as) := by
  induction h generalizing found with
  | nil =>
    rw [List.append_nil]
    exact reads_collectFrom_stop (hstop found hg)
  | @cons a as ws vs ha has ih =>
    obtain ⟨hne, hread⟩ := hstep found a as ws vs hg ha has
    rw [List.append_assoc]
    refine reads_collectFrom_step hread ?_ fun a' ha' => ?_
    · have hpos := List.length_pos_iff.mpr hne
      have hlen : (ws ++ (vs ++ rest)).length = ws.length + (vs ++ rest).length := by simp
      omega
    · have hrest := ih (hgood found a a' as hg ha')
      rwa [List.append_assoc, List.singleton_append] at hrest

/-- `reads_collectFrom` for what is read as it is, from the start. -/
theorem reads_collect {W : α → List Char → Prop} {G : List α → List α → Prop}
    (hstep : ∀ found a as ws vs, G found (a :: as) → W a ws → WrittenAll W as vs →
      ws ≠ [] ∧ Reads id (step found) (ws ++ (vs ++ rest)) (vs ++ rest) (some a))
    (hgood : ∀ found a as, G found (a :: as) → G (found ++ [a]) as)
    (hstop : ∀ found, G found [] → Reads id (step found) rest rest' none)
    {as : List α} {ws : List Char} (h : WrittenAll W as ws) (hg : G [] as) :
    Reads id (collect step) (ws ++ rest) rest' as := by
  have hread : Reads (List.map id) (collectFrom step []) (ws ++ rest) rest' ([] ++ as) := by
    refine reads_collectFrom id ?_ ?_ hstop h hg
    · rw [Option.map_id]
      exact hstep
    · intro found a a' as hg heq
      cases heq
      exact hgood found a as hg
  rwa [List.map_id_fun, List.nil_append] at hread

end Scanner

end Phrasebook
