import Phrasebook.Proofs.RoundTrip
import Phrasebook.Proofs.SourceSpans

/-!
The spans of a message tile its source, and what stands in braces can be read on its own.

A simple message is one pattern that is laid over the whole of its source. Its spans come one after
the other, and the stretches between them are written forms of its texts, so `unescape` gives the
texts back. What a span of any message cuts out of the source is a written form of the item that it
belongs to, so parsing the cutting gives that item, placed at the start of a text. Main statement:
`Message.tiles_and_stands_alone`.
-/

namespace Phrasebook

/-! ## Items in braces -/

theorem PatternItem.exists_text_of_span?_eq_none {item : PatternItem} (h : item.span? = none) :
    ∃ s, item = .text s := by
  cases item with
  | text s => exact ⟨s, rfl⟩
  | expression e => cases h
  | markup m => cases h

theorem PatternItem.not_isText_of_span? {item : PatternItem} {s : Span} (h : item.span? = some s) :
    ¬ item.IsText := by
  cases item with
  | text _ => cases h
  | expression _ => exact id
  | markup _ => exact id

namespace Scanner

variable {α : Type} {c : Cursor}

/-! ## Where patterns end -/

/-- Where a step finds nothing, the whole repetition ends. -/
theorem ensures_collectFrom_stop {step : List α → Scanner (Option α)} {T : Cursor → Prop}
    (hstop : ∀ found c, Ensures (step found) c fun a? d => a? = none → T d)
    (hmore : ∀ found c, Ensures (step found) c fun a? d =>
      a?.isSome → d.rest.length < c.rest.length) (found : List α) :
    Ensures (collectFrom step found) c fun _ d => T d := by
  intro as d hrun
  fun_induction collectFrom step found c with
  | case1 found c e he => cases hrun
  | case2 found c e he =>
    cases hrun
    exact hstop _ c none _ he rfl
  | case3 found c a e he hlt ih => exact ih hrun
  | case4 found c a e he hlt => exact absurd (hmore found c (some a) e he rfl) hlt

/-- No text is next only before a brace, at the end of the pattern or at the end of the source. -/
theorem textRun_eq_nil {quotedPattern : Bool} {cs : List Char} {p : Position} {d : Cursor}
    (h : textRun quotedPattern cs p = .ok ([], d)) :
    cs.head? = some '\x7b' ∨ cs = [] ∨ PatternEnds quotedPattern cs := by
  fun_induction textRun quotedPattern cs p with
  | case1 => exact .inr (.inl rfl)
  | case2 => cases h
  | case3 =>
    obtain ⟨⟨run, e⟩, -, h⟩ := Outcome.bind_eq_ok h
    cases h
  | case4 => cases h
  | case5 => exact .inl rfl
  | case6 rest p hend =>
    rw [Bool.and_eq_true, beq_iff_eq] at hend
    obtain ⟨rfl, hnext⟩ := hend
    obtain ⟨rest, rfl⟩ := List.head?_eq_some_iff.mp hnext
    exact .inr (.inr .quoted)
  | case7 => cases h
  | case8 =>
    obtain ⟨⟨run, e⟩, -, h⟩ := Outcome.bind_eq_ok h
    cases h

theorem ensures_item?_stop (quotedPattern : Bool) (c : Cursor) :
    Ensures (item? quotedPattern) c fun item? d =>
      item? = none → d.rest = [] ∨ PatternEnds quotedPattern d.rest := by
  unfold item?
  refine Ensures.get (Ensures.lift ?_)
  rintro ⟨run, d⟩ hrun
  dsimp only
  split
  · exact Ensures.set (.pure fun hnone => by cases hnone)
  · next hempty =>
    have hrun' : run = [] := by simpa using hempty
    subst hrun'
    split
    · exact Ensures.after fun item _ => .pure fun hnone => by cases hnone
    · next hbrace => exact .pure fun _ => (textRun_eq_nil hrun).resolve_left hbrace

/-- An item takes characters. -/
theorem ensures_item?_more (quotedPattern : Bool) (c : Cursor) :
    Ensures (item? quotedPattern) c fun item? d =>
      item?.isSome → d.rest.length < c.rest.length := by
  intro item? d hrun hsome
  obtain ⟨item, rfl⟩ := Option.isSome_iff_exists.mp hsome
  have hitem := (ensures_item? quotedPattern c _ d hrun item rfl).1
  have htraces := traces_item? (o := c) (c := c) quotedPattern
  obtain ⟨ws, hpasses, hplaced⟩ := htraces.passes _ d (.refl c) hrun
  have hpos := List.length_pos_iff.mpr (hplaced.written.ne_nil hitem)
  rw [hpasses.1, List.length_append]
  omega

theorem ensures_pattern (quotedPattern : Bool) (c : Cursor) :
    Ensures (pattern quotedPattern) c fun _ d => PatternEnds quotedPattern d.rest := by
  have hitems : Ensures (collect fun _ => item? quotedPattern) c fun _ d =>
      d.rest = [] ∨ PatternEnds quotedPattern d.rest :=
    ensures_collectFrom_stop (fun _ => ensures_item?_stop quotedPattern)
      (fun _ => ensures_item?_more quotedPattern) []
  unfold pattern
  refine hitems.bind fun items d hd => Ensures.peek ?_
  split
  · exact Ensures.bind (R := fun _ _ => False) (ensures_fail _) fun _ _ hfalse => hfalse.elim
  · next hopen =>
    refine .pure ?_
    rcases hd with hnil | hd
    · cases quotedPattern with
      | false =>
        rw [hnil]
        exact .simple
      | true => exact absurd (by simp [hnil]) hopen
    · exact hd

theorem ensures_simpleMessage (c : Cursor) : Ensures simpleMessage c fun _ d => d.rest = [] := by
  unfold simpleMessage
  refine (ensures_pattern false c).bind fun items d hd => .pure ?_
  cases hends : d.rest with
  | nil => rfl
  | cons x xs =>
    rw [hends] at hd
    cases hd

end Scanner

/-- A simple message is a pattern that is laid over the whole of its source. -/
theorem Message.laid_of_scan {source : String} {m : Message} (h : scan source = .ok m)
    (hsimple : isComplex source.toList = false) :
    ∃ p, m = ⟨[], .pattern p⟩ ∧ Laid .start p source.toList := by
  obtain ⟨⟨m', c⟩, hrun, h⟩ := Outcome.bind_eq_ok h
  cases h
  rw [hsimple, if_neg (by decide)] at hrun
  have hend := Scanner.ensures_simpleMessage _ _ _ hrun
  obtain ⟨⟨p, d⟩, hpattern, hrun⟩ := Outcome.bind_eq_ok hrun
  cases hrun
  have htraces := Scanner.traces_pattern (o := .ofText source.toList)
    (c := .ofText source.toList) false
  obtain ⟨ws, hpasses, hlaid⟩ := htraces.passes p _ (.refl _) hpattern
  have hall : source.toList = ws := by
    have hrest := hpasses.1
    rwa [hend, List.append_nil] at hrest
  rw [hall]
  exact ⟨p, rfl, hlaid⟩

/-! ## Gaps between spans -/

/-- The characters without the backslash of each escape. -/
def unescape : List Char → List Char
  | '\\' :: c :: rest => c :: unescape rest
  | c :: rest => c :: unescape rest
  | [] => []

/-- The text that some characters are, or nothing where there are none. -/
def textItems (cs : List Char) : Pattern := if cs = [] then [] else [.text (String.ofList cs)]

/-- The stretches of a source between spans in a row, from one of its bytes to its end. -/
def gaps (source : String) (start : Nat) : List Span → List String
  | [] => [slice source start source.utf8ByteSize]
  | s :: rest => slice source start s.start :: gaps source s.stop rest

/-- The spans of the pattern come one after the other, and the gaps between them are written forms
of the texts that stand there. -/
structure Tiles (p : Pattern) (source : String) : Prop where
  nonempty : ∀ s ∈ itemSpans p, s.start < s.stop
  ordered : (itemSpans p).Pairwise fun s t => s.stop ≤ t.start
  texts : p.splitOnP (·.span?.isSome) =
    (gaps source 0 (itemSpans p)).map fun gap => textItems (unescape gap.toList)

theorem unescape_of_escaped {cs ws : List Char} (h : Escaped PlainInText cs ws) :
    unescape ws = cs := by
  induction h with
  | nil => rfl
  | @plain c cs ws hc _ ih =>
    rw [unescape, ih]
    exact fun _ _ h => absurd h hc.2.2
  | escaped _ _ ih => rw [unescape, ih]

theorem textItems_toList {s : String} (h : s ≠ "") : textItems s.toList = [.text s] := by
  simp [textItems, h]

theorem forall_mem_textItems (cs : List Char) :
    ∀ item ∈ textItems cs, item.span?.isSome = false := by
  unfold textItems
  split
  · simp
  · simp [PatternItem.span?]

/-- The bytes of an item in braces are those that its span says. -/
theorem PatternItem.Placed.bytes {item : PatternItem} {p : Position} {ws : List Char}
    (h : item.Placed p ws) {s : Span} (hs : item.span? = some s) :
    s.start = p.offset ∧ s.stop = p.offset + String.utf8Len ws ∧ 0 < String.utf8Len ws := by
  have hspan := h.span s hs
  obtain ⟨vs, rfl⟩ := h.written.exists_brace (not_isText_of_span? hs)
  have hpos := Char.utf8Size_pos '\x7b'
  refine ⟨by rw [hspan]; rfl, by rw [hspan]; simp [Position.spanTo], ?_⟩
  rw [String.utf8Len_cons]
  omega

theorem Laid.spans {p : Position} {items : Pattern} {ws : List Char} (h : Laid p items ws) :
    (∀ s ∈ itemSpans items, p.offset ≤ s.start ∧ s.start < s.stop) ∧
      (itemSpans items).Pairwise fun s t => s.stop ≤ t.start := by
  induction h with
  | nil => simp [itemSpans]
  | @cons p item items ws vs hitem _ ih =>
    obtain ⟨hbounds, hordered⟩ := ih
    rw [Position.advanceOver_offset] at hbounds
    cases hspan : item.span? with
    | none =>
      rw [itemSpans_cons_none hspan]
      refine ⟨fun s hs => ?_, hordered⟩
      have hs' := hbounds s hs
      omega
    | some first =>
      obtain ⟨hstart, hstop, hpos⟩ := hitem.bytes hspan
      rw [itemSpans_cons_some hspan]
      refine ⟨List.forall_mem_cons.mpr ⟨by omega, fun s hs => ?_⟩,
        List.pairwise_cons.mpr ⟨fun s hs => ?_, hordered⟩⟩
      · have hs' := hbounds s hs
        omega
      · have hs' := hbounds s hs
        omega

theorem TextsParted.of_append {p q : Pattern} (h : TextsParted (p ++ q)) : TextsParted q := by
  induction p with
  | nil => exact h
  | cons a p ih =>
    rw [List.cons_append] at h
    cases hrest : p ++ q with
    | nil =>
      rw [(List.append_eq_nil_iff.mp hrest).2]
      trivial
    | cons b rest =>
      rw [hrest] at h
      rw [hrest] at ih
      exact ih h.2

/-- Where a text follows, no other text stands before it. -/
theorem TextsParted.eq_nil {cs : List Char} {s : String} {p : Pattern}
    (h : TextsParted (textItems cs ++ .text s :: p)) : cs = [] := by
  by_cases hcs : cs = []
  · exact hcs
  · rw [textItems, if_neg hcs] at h
    exact absurd ⟨trivial, trivial⟩ h.1

/-- The gaps of a pattern that comes after a text, when the gap of that text has begun. -/
theorem Laid.texts {source : String} {p : Position} {items : Pattern} {ws : List Char}
    (h : Laid p items ws) {before pending cs : List Char}
    (hsource : source = String.ofList (before ++ pending ++ ws))
    (hp : p.offset = String.utf8Len before + String.utf8Len pending)
    (hpending : Escaped PlainInText cs pending) (hitems : ∀ item ∈ items, item.WellFormed)
    (hparted : TextsParted (textItems cs ++ items)) :
    (textItems cs ++ items).splitOnP (·.span?.isSome) =
      (gaps source (String.utf8Len before) (itemSpans items)).map fun gap =>
        textItems (unescape gap.toList) := by
  induction h generalizing before pending cs with
  | nil =>
    have hgap : slice source (String.utf8Len before) source.utf8ByteSize =
        String.ofList pending := by
      rw [hsource, List.append_nil]
      exact slice_end_ofList before pending
    have hsplit := List.splitOnP_eq_singleton (forall_mem_textItems cs)
    simp [itemSpans, gaps, hgap, hsplit, unescape_of_escaped hpending]
  | @cons p item items us vs hitem _ ih =>
    obtain ⟨hfirst, hothers⟩ := List.forall_mem_cons.mp hitems
    have hoffset := Position.advanceOver_offset p us
    cases hspan : item.span? with
    | none =>
      obtain ⟨s, rfl⟩ := PatternItem.exists_text_of_span?_eq_none hspan
      -- no text comes before a text, so the gap of this one begins here
      cases hparted.eq_nil
      cases hpending
      have hitems : textItems s.toList = [.text s] := textItems_toList hfirst
      have hus : Escaped PlainInText s.toList us := by
        cases hitem.written with
        | text hs => exact hs
      have hrest := @ih before us s.toList (by simpa using hsource)
        (by rw [hoffset, hp]; rfl) hus hothers (by rwa [hitems])
      rw [hitems] at hrest
      rw [itemSpans_cons_none hspan]
      exact hrest
    | some first =>
      obtain ⟨hstart, hstop, -⟩ := hitem.bytes hspan
      have hgap : slice source (String.utf8Len before) first.start = String.ofList pending := by
        have hslice := slice_ofList before pending (us ++ vs)
        rwa [← hsource, ← hp, ← hstart] at hslice
      have hafter : String.utf8Len (before ++ pending ++ us) = first.stop := by
        rw [String.utf8Len_append, String.utf8Len_append, ← hp, hstop]
      have hnext : TextsParted ([item] ++ items) := hparted.of_append
      have hrest := @ih (before ++ pending ++ us) [] [] (by simpa using hsource)
        (by rw [hoffset, hafter, hstop]; rfl) .nil hothers hnext.of_append
      have hsplit := List.splitOnP_append_cons_of_forall_mem (forall_mem_textItems cs) item
        (by simp [hspan]) items
      rw [hafter] at hrest
      rw [hsplit, itemSpans_cons_some hspan, gaps, List.map_cons, hgap, String.toList_ofList,
        unescape_of_escaped hpending]
      exact congrArg (textItems cs :: ·) hrest

/-- A pattern that is laid over a whole source tiles it. -/
theorem Laid.tiles {source : String} {p : Pattern} (h : Laid .start p source.toList)
    (hp : PatternWellFormed p) : Tiles p source := by
  obtain ⟨hbounds, hordered⟩ := h.spans
  have hsource : source = String.ofList ([] ++ [] ++ source.toList) := by
    rw [List.nil_append, List.nil_append, String.ofList_toList]
  exact ⟨fun s hs => (hbounds s hs).2, hordered, h.texts hsource rfl .nil hp.items hp.parted⟩

/-! ## Items on their own -/

/-- The item as it is read at another place. -/
def PatternItem.movedTo (span : Span) : PatternItem → PatternItem
  | .text s => .text s
  | .expression e => .expression { e with span }
  | .markup m => .markup { m with span }

/-- The span of a text of so many bytes. -/
def Span.whole (size : Nat) : Span := ⟨0, size, 1, 1⟩

/-- An item that looks like another is that item, moved to where it is itself. -/
theorem PatternItem.eq_movedTo {item item' : PatternItem} {s : Span}
    (h : item'.unplaced = item.unplaced) (hs : item'.span? = some s) : item' = item.movedTo s := by
  cases item' with
  | text t => cases hs
  | expression e' =>
    cases hs
    cases item with
    | text t => cases h
    | markup m => cases h
    | expression e =>
      obtain ⟨operand', function', span'⟩ := e'
      obtain ⟨operand, function, span⟩ := e
      cases h
      rfl
  | markup m' =>
    cases hs
    cases item with
    | text t => cases h
    | expression e => cases h
    | markup m =>
      obtain ⟨kind', name', options', span'⟩ := m'
      obtain ⟨kind, name, options, span⟩ := m
      cases h
      rfl

/-- An item in braces, alone, is no message that a full stop begins. -/
theorem ItemWritten.alone {item : PatternItem} {ws : List Char} (h : ItemWritten item ws)
    (hbraces : ¬ item.IsText) :
    WrittenAll ItemWritten [item] ws ∧ ∀ b rest, Blanks b → ws ≠ b ++ '.' :: rest := by
  refine ⟨.single h, fun b rest hb heq => ?_⟩
  obtain ⟨vs, rfl⟩ := h.exists_brace hbraces
  cases b with
  | nil => cases heq
  | cons c b =>
    cases heq
    have hblank := hb '\x7b' List.mem_cons_self
    cases hblank

theorem Message.wellFormed_of_item {item : PatternItem} (h : item.WellFormed) :
    Message.WellFormed ⟨[], .pattern [item]⟩ :=
  ⟨by simp, by simp, ⟨List.forall_mem_singleton.mpr h, trivial⟩⟩

/-- The only item of a text has the span of all of it. -/
theorem Laid.eq_movedTo {item item' : PatternItem} {ws : List Char} (h : Laid .start [item'] ws)
    (hsame : item'.unplaced = item.unplaced) (hbraces : ¬ item.IsText) :
    item' = item.movedTo (.whole (String.utf8Len ws)) := by
  have hplaced : item'.Placed .start ws := by
    cases h with
    | cons hfirst hrest =>
      cases hrest
      rwa [List.append_nil]
  cases hspan : item'.span? with
  | none =>
    obtain ⟨s, rfl⟩ := PatternItem.exists_text_of_span?_eq_none hspan
    cases item with
    | text _ => exact absurd trivial hbraces
    | expression _ => cases hsame
    | markup _ => cases hsame
  | some s =>
    have hwhole : s = .whole (String.utf8Len ws) := by
      rw [hplaced.span s hspan]
      simp [Position.spanTo, Position.start, Span.whole]
    rw [← hwhole]
    exact PatternItem.eq_movedTo hsame hspan

/-- A written form of an item in braces is parsed as a simple message of that item alone. -/
theorem Message.parse_of_itemWritten {item : PatternItem} {ws : List Char}
    (h : ItemWritten item ws) (hitem : item.WellFormed) (hbraces : ¬ item.IsText) :
    isComplex ws = false ∧ parse (String.ofList ws) =
      .ok ⟨[], .pattern [item.movedTo (.whole (String.utf8Len ws))]⟩ := by
  obtain ⟨hall, hstop⟩ := h.alone hbraces
  have hsimple := isComplex_of_simple hall hstop
  have hwf := wellFormed_of_item hitem
  obtain ⟨m, hscan, hm⟩ := scan_of_written (.simple hall hstop) hwf
  have hvalid := validate_of_unplaced hwf hm
  obtain ⟨p, rfl, hlaid⟩ := laid_of_scan hscan (by rwa [String.toList_ofList])
  rw [String.toList_ofList] at hlaid
  have hitems : p.map PatternItem.unplaced = [item.unplaced] :=
    Body.pattern.inj (congrArg Message.body hm)
  obtain ⟨item', rfl, hsame⟩ := List.map_eq_singleton_iff.mp hitems
  rw [hlaid.eq_movedTo hsame hbraces] at hscan hvalid
  refine ⟨hsimple, ?_⟩
  unfold parse
  rw [hscan]
  dsimp only [bind, Except.bind]
  rw [hvalid]
  rfl

theorem Message.PiecesWellFormed.items {m : Message} (h : m.PiecesWellFormed) :
    ∀ item ∈ m.items, item.WellFormed := by
  intro item hitem
  rcases List.mem_append.mp hitem with hdeclared | hbody
  · obtain ⟨d, hd, rfl⟩ := List.mem_map.mp hdeclared
    exact (h.declarations d hd).expression
  · obtain ⟨declarations, body⟩ := m
    cases body with
    | pattern p => exact h.body.items item hbody
    | choice c =>
      obtain ⟨v, hv, hitem⟩ := List.mem_flatMap.mp hbody
      exact (h.body.patterns v hv).items item hitem

/-- The spans of a simple message tile its source, and what any message has in braces, cut out of
the source, is parsed as a simple message of that item alone. -/
theorem Message.tiles_and_stands_alone {source : String} {m : Message}
    (h : parse source = .ok m) :
    (isComplex source.toList = false → ∃ p, m = ⟨[], .pattern p⟩ ∧ Tiles p source) ∧
      ∀ item ∈ m.items, ∀ s, item.span? = some s →
        isComplex (slice source s.start s.stop).toList = false ∧
          parse (slice source s.start s.stop) =
            .ok ⟨[], .pattern [item.movedTo (.whole (s.stop - s.start))]⟩ := by
  have hscan := (of_parse h).1
  have hpieces := piecesWellFormed_of_scan hscan
  constructor
  · intro hsimple
    obtain ⟨p, rfl, hlaid⟩ := laid_of_scan hscan hsimple
    exact ⟨p, rfl, hlaid.tiles hpieces.body⟩
  · intro item hitem s hs
    obtain ⟨d, ws, e, hd, he, hplaced⟩ := (standsIn_of_scan hscan).items item hitem
    obtain ⟨before, hsource, hposition⟩ := Cursor.exists_split hd he
    obtain ⟨hstart, hstop, -⟩ := hplaced.bytes hs
    have hbefore : d.position.offset = String.utf8Len before := by
      rw [hposition, Position.advanceOver_offset]
      exact Nat.zero_add _
    have hslice : slice source s.start s.stop = String.ofList ws := by
      rw [hstart, hstop, hbefore, hsource]
      exact slice_ofList before ws e.rest
    have hsize : s.stop - s.start = String.utf8Len ws := by omega
    rw [hslice, hsize, String.toList_ofList]
    exact parse_of_itemWritten hplaced.written (hpieces.items item hitem)
      (PatternItem.not_isText_of_span? hs)

/-- Markup around an expression, with escapes and letters of more than one byte. -/
def markedSource : String := "é\\\x7b \x7b#b x=1 @y\x7d\\|ü\x7b$n :f\x7d\x7b/b\x7d"

theorem Message.tiles_and_stands_alone_marked :
    (∃ p, parse markedSource = .ok ⟨[], .pattern p⟩ ∧ (itemSpans p).length = 3 ∧
        Tiles p markedSource) ∧
      ∃ m, parse accentedSource = .ok m ∧ (itemSpans m.items).length = 2 ∧
        ∀ item ∈ m.items, ∀ s, item.span? = some s →
          isComplex (slice accentedSource s.start s.stop).toList = false ∧
            parse (slice accentedSource s.start s.stop) =
              .ok ⟨[], .pattern [item.movedTo (.whole (s.stop - s.start))]⟩ := by
  constructor
  · have hcount : (parse markedSource).toOption.map (fun m => (itemSpans m.items).length) =
        some 3 := by decide +kernel
    obtain ⟨m, hm, hlength⟩ := Option.map_eq_some_iff.mp hcount
    have hparse := Outcome.eq_ok_of_toOption hm
    obtain ⟨p, rfl, htiles⟩ := (tiles_and_stands_alone hparse).1 (by decide)
    exact ⟨p, hparse, hlength, htiles⟩
  · have hcount : (parse accentedSource).toOption.map (fun m => (itemSpans m.items).length) =
        some 2 := by decide +kernel
    obtain ⟨m, hm, hlength⟩ := Option.map_eq_some_iff.mp hcount
    have hparse := Outcome.eq_ok_of_toOption hm
    exact ⟨m, hparse, hlength, (tiles_and_stands_alone hparse).2⟩

end Phrasebook
