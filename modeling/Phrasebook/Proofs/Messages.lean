import Phrasebook.Proofs.ScannedForms

/-!
Scanners read the written forms of patterns and declarations and the scanned forms of bodies.

A text run ends where a placeholder begins or where its pattern ends, which `PatternEnds` says. A
step that finds nothing more may have passed over blanks already, so what comes after selectors
is read from its first character that is no blank.
-/

namespace Phrasebook

/-! ## Where pieces begin and end -/

theorem Escaped.ne_nil {plain : Char → Prop} {cs ws : List Char} (h : Escaped plain cs ws)
    (hcs : cs ≠ []) : ws ≠ [] := by
  cases h with
  | nil => exact hcs
  | plain => exact List.cons_ne_nil _ _
  | escaped => exact List.cons_ne_nil _ _

/-- What comes after a pattern: nothing, or two closing braces. -/
inductive PatternEnds : Bool → List Char → Prop
  | simple : PatternEnds false []
  | quoted {rest : List Char} : PatternEnds true ('\x7d' :: '\x7d' :: rest)

theorem PatternEnds.braces {rest : List Char} (h : PatternEnds true rest) :
    ['\x7d', '\x7d'] <+: rest := by
  cases h
  exact ⟨_, rfl⟩

/-- What comes after a text: a placeholder, or the end of the pattern. -/
inductive TextEnds (quotedPattern : Bool) : List Char → Prop
  | placeholder {rest : List Char} : TextEnds quotedPattern ('\x7b' :: rest)
  | pattern {rest : List Char} : PatternEnds quotedPattern rest → TextEnds quotedPattern rest

/-- What is not text begins with a brace. -/
theorem ItemWritten.exists_brace {item : PatternItem} {ws : List Char} (h : ItemWritten item ws)
    (hitem : ¬ item.IsText) : ∃ vs, ws = '\x7b' :: vs := by
  cases h with
  | text => exact absurd trivial hitem
  | expression h => cases h; exact ⟨_, rfl⟩
  | markup h => cases h; exact ⟨_, rfl⟩

theorem ItemWritten.ne_nil {item : PatternItem} {ws : List Char} (h : ItemWritten item ws)
    (hitem : item.WellFormed) : ws ≠ [] := by
  cases h with
  | @text s ws hs =>
    have hne : s.toList ≠ [] := fun hnil => hitem (String.toList_eq_nil_iff.mp hnil)
    exact hs.ne_nil hne
  | expression h =>
    cases h
    exact List.cons_ne_nil _ _
  | markup h =>
    cases h
    exact List.cons_ne_nil _ _

/-- A text ends where the items after it begin. -/
theorem textEnds_of_parted {quotedPattern : Bool} {item : PatternItem} {p : Pattern}
    {ws rest : List Char} (hitem : item.IsText) (hparted : TextsParted (item :: p))
    (h : WrittenAll ItemWritten p ws) (hr : PatternEnds quotedPattern rest) :
    TextEnds quotedPattern (ws ++ rest) := by
  cases h with
  | nil => exact .pattern hr
  | cons ha _ =>
    obtain ⟨us, rfl⟩ := ha.exists_brace fun htext => hparted.1 ⟨hitem, htext⟩
    exact .placeholder

theorem ExpressionWritten.stops_blank {e : Expression} {ws rest : List Char}
    (h : ExpressionWritten e ws) : Stops isBlank (ws ++ rest) := by
  cases h
  exact stops_cons (by decide)

theorem DeclarationWritten.ne_nil {d : Declaration} {ws : List Char}
    (h : DeclarationWritten d ws) : ws ≠ [] := by
  cases h <;> simp

theorem SelectorWritten.ne_nil {name : String} {ws : List Char} (h : SelectorWritten name ws) :
    ws ≠ [] := by
  cases h
  simp

theorem SelectorWritten.delimited {name : String} {ws rest : List Char}
    (h : SelectorWritten name ws) : Delimited (ws ++ rest) := by
  cases h with
  | mk hb hne =>
    rw [List.append_assoc]
    exact .of_blanks hb hne

theorem PatternWellFormed.tail {item : PatternItem} {p : Pattern}
    (h : PatternWellFormed (item :: p)) : PatternWellFormed p := by
  refine ⟨fun i hi => h.items i (List.mem_cons_of_mem _ hi), ?_⟩
  cases p with
  | nil => trivial
  | cons _ _ => exact h.parted.2

namespace Scanner

variable {rest : List Char} {quotedPattern : Bool}

/-! ## Patterns -/

theorem textRun_of_escaped {cs ws : List Char} (h : Escaped PlainInText cs ws)
    (hr : TextEnds quotedPattern rest) (p : Position) :
    ∃ q, textRun quotedPattern (ws ++ rest) p = .ok (cs, ⟨rest, q⟩) := by
  induction h generalizing p with
  | nil =>
    refine ⟨p, ?_⟩
    rw [List.nil_append]
    cases hr with
    | placeholder => rfl
    | pattern hr =>
      cases hr with
      | simple => rfl
      | quoted => rfl
  | @plain c cs ws hc _ ih =>
    obtain ⟨q, hq⟩ := ih (p.advance c)
    refine ⟨q, ?_⟩
    rw [List.cons_append, textRun]
    · rw [hq]
      rfl
    · exact fun h => absurd h hc.2.2
    · exact fun _ _ h => absurd h hc.2.2
    · exact hc.1
    · exact hc.2.1
  | @escaped c cs ws hc _ ih =>
    obtain ⟨q, hq⟩ := ih ((p.advance '\\').advance c)
    refine ⟨q, ?_⟩
    simp only [List.cons_append, textRun, hc, if_true, hq]
    rfl

theorem reads_item?_text {s : String} {ws : List Char} (h : Escaped PlainInText s.toList ws)
    (hs : s.toList ≠ []) (hr : TextEnds quotedPattern rest) :
    Reads (Option.map PatternItem.unplaced) (item? quotedPattern) (ws ++ rest) rest
      (some (.text s)) := by
  have hnonempty : (!s.toList.isEmpty) = true := by
    rw [List.isEmpty_eq_false_iff.mpr hs]
    rfl
  unfold item?
  refine Reads.get fun p => ?_
  obtain ⟨q, hq⟩ := textRun_of_escaped h hr p
  refine Reads.lift hq ?_
  dsimp only
  rw [if_pos hnonempty]
  refine Reads.set (.pure ?_)
  rw [String.ofList_toList]

theorem reads_item?_placeholder {item : PatternItem} {ws vs : List Char} (hws : ws = '\x7b' :: vs)
    (h : Reads PatternItem.unplaced placeholder (ws ++ rest) rest item) :
    Reads (Option.map PatternItem.unplaced) (item? quotedPattern) (ws ++ rest) rest
      (some item) := by
  subst hws
  unfold item?
  refine Reads.get fun p => Reads.lift (a := ([], ⟨'\x7b' :: (vs ++ rest), p⟩)) rfl ?_
  refine h.bind fun item' hitem => .pure ?_
  rw [Option.map_some, Option.map_some, hitem]

theorem reads_item? {item : PatternItem} {p : Pattern} {ws vs : List Char}
    (h : ItemWritten item ws) (hwf : PatternWellFormed (item :: p))
    (hp : WrittenAll ItemWritten p vs) (hr : PatternEnds quotedPattern rest) :
    ws ≠ [] ∧ Reads (Option.map PatternItem.unplaced) (item? quotedPattern) (ws ++ (vs ++ rest))
      (vs ++ rest) (some item) := by
  have hitem := hwf.items item List.mem_cons_self
  refine ⟨h.ne_nil hitem, ?_⟩
  cases h with
  | @text s ws hs =>
    have hne : s.toList ≠ [] := fun hnil => hitem (String.toList_eq_nil_iff.mp hnil)
    have htext : (PatternItem.text s).IsText := trivial
    exact reads_item?_text hs hne (textEnds_of_parted htext hwf.parted hp hr)
  | expression he =>
    obtain ⟨us, hus⟩ := (ItemWritten.expression he).exists_brace id
    exact reads_item?_placeholder hus (reads_placeholder_of_expression he hitem)
  | markup hm =>
    obtain ⟨us, hus⟩ := (ItemWritten.markup hm).exists_brace id
    exact reads_item?_placeholder hus (reads_placeholder_of_markup hm hitem)

theorem reads_item?_stop (hr : PatternEnds quotedPattern rest) :
    Reads id (item? quotedPattern) rest rest none := by
  unfold item?
  refine Reads.get fun p => Reads.lift (a := ([], ⟨rest, p⟩)) ?_ ?_
  · cases hr with
    | simple => rfl
    | quoted => rfl
  · cases hr with
    | simple => exact .pure rfl
    | quoted => exact .pure rfl

theorem reads_pattern {p : Pattern} {ws : List Char} (h : WrittenAll ItemWritten p ws)
    (hp : PatternWellFormed p) (hr : PatternEnds quotedPattern rest) :
    Reads (List.map PatternItem.unplaced) (pattern quotedPattern) (ws ++ rest) rest p := by
  have hitems : Reads (List.map PatternItem.unplaced) (collect fun _ => item? quotedPattern)
      (ws ++ rest) rest p := by
    refine reads_collectFrom PatternItem.unplaced (G := fun _ p => PatternWellFormed p)
      ?_ ?_ ?_ h hp
    · exact fun _ _ _ _ _ hwf hw hvs => reads_item? hw hwf hvs hr
    · exact fun _ _ _ _ hwf _ => hwf.tail
    · exact fun _ _ => reads_item?_stop hr
  unfold pattern
  refine hitems.bind fun p' hp' => ?_
  cases hr with
  | simple => exact reads_peek.next (.pure hp')
  | quoted => exact reads_peek.next (.pure hp')

theorem reads_quotedPattern {p : Pattern} {ws : List Char} (h : QuotedWritten p ws)
    (hp : PatternWellFormed p) :
    Reads (List.map PatternItem.unplaced) Scanner.quotedPattern (ws ++ rest) rest p := by
  cases h with
  | @mk ws h =>
    simp only [List.cons_append, List.append_assoc, List.nil_append]
    unfold Scanner.quotedPattern
    refine (reads_startsWith _).next ((reads_skip 2).next ?_)
    refine (reads_pattern h hp .quoted).bind fun p' hp' => ?_
    exact (reads_skip 2).next (.pure hp')

/-! ## Declarations -/

theorem reads_keyword? (word : String) (hr : Stops isNameChar rest) :
    Reads id (keyword? word) ('.' :: (word.toList ++ rest)) rest true := by
  have hlead : ('.' :: word.toList).isPrefixOf ('.' :: (word.toList ++ rest)) = true := by
    rw [List.isPrefixOf_iff_prefix]
    exact ⟨rest, rfl⟩
  have hdrop : ('.' :: (word.toList ++ rest)).drop ('.' :: word.toList).length = rest :=
    List.drop_left
  have hend : rest.head?.any isNameChar = false := by
    cases rest with
    | nil => rfl
    | cons c cs => exact hr c cs rfl
  unfold keyword?
  refine Reads.get fun p => ?_
  dsimp only
  rw [hlead, hdrop, hend, if_pos (by decide)]
  exact (reads_skip_append ('.' :: word.toList)).next (.pure rfl)

/-- Another word is no keyword, and stays. -/
theorem reads_keyword?_other {word : String} (h : ('.' :: word.toList).isPrefixOf rest = false) :
    Reads id (keyword? word) rest rest false := by
  unfold keyword?
  refine Reads.get fun p => ?_
  dsimp only
  rw [h, if_neg (by simp)]
  exact .pure rfl

theorem reads_inputDeclaration {name : String} {e : Expression} {b ws : List Char} (hb : Blanks b)
    (h : ExpressionWritten e ws) (hwf : e.WellFormed) (he : e.operand = some (.variable name)) :
    Reads Declaration.unplaced inputDeclaration (b ++ (ws ++ rest)) rest ⟨.input, name, e⟩ := by
  unfold inputDeclaration
  refine (reads_skipBlanks hb h.stops_blank).next ((reads_expression h hwf).bind fun e' he' => ?_)
  have hoperand := congrArg Expression.operand he'
  change e'.operand = e.operand at hoperand
  rw [hoperand, he]
  refine .pure ?_
  rw [Declaration.unplaced, Declaration.unplaced, he']

theorem reads_bindingDeclaration {name : String} {e : Expression} {b b₁ b₂ ws : List Char}
    (hb : Blanks b) (hne : b ≠ []) (hb₁ : Blanks b₁) (hb₂ : Blanks b₂) (hname : IsName name)
    (h : ExpressionWritten e ws) (hwf : e.WellFormed) :
    Reads Declaration.unplaced bindingDeclaration
      (b ++ '$' :: (name.toList ++ (b₁ ++ '=' :: (b₂ ++ (ws ++ rest))))) rest
      ⟨.binding, name, e⟩ := by
  have hequals : Delimited (b₁ ++ '=' :: (b₂ ++ (ws ++ rest))) :=
    (Delimited.cons (by decide)).blanks hb₁
  unfold bindingDeclaration
  refine (reads_skipBlanks hb (stops_cons (by decide))).next ?_
  rw [List.isEmpty_eq_false_iff.mpr hne, if_neg (by decide)]
  refine (reads_expect '$').next ((reads_name hname hequals.stops_name).next ?_)
  refine (reads_skipBlanks hb₁ (stops_cons (by decide))).next ((reads_expect '=').next ?_)
  refine (reads_skipBlanks hb₂ h.stops_blank).next ((reads_expression h hwf).bind fun e' he' => ?_)
  refine .pure ?_
  rw [Declaration.unplaced, Declaration.unplaced, he']

theorem reads_declaration? {d : Declaration} {ws : List Char} (h : DeclarationWritten d ws)
    (hd : d.WellFormed) :
    Reads (Option.map Declaration.unplaced) declaration? (ws ++ rest) rest (some d) := by
  unfold declaration?
  cases h with
  | @input name e b b₁ ws hb hb₁ he =>
    have hword : Delimited (b₁ ++ (ws ++ rest)) := by
      cases he
      exact (Delimited.cons (by decide)).blanks hb₁
    simp only [List.append_assoc]
    refine (reads_skipBlanks hb (stops_cons (by decide))).next ?_
    refine (reads_keyword? "input" hword.stops_name).next ?_
    rw [if_pos rfl]
    refine (reads_inputDeclaration hb₁ he hd.expression (hd.input rfl)).bind fun d' hd' => .pure ?_
    rw [Option.map_some, Option.map_some, hd']
  | @binding name e b b₁ b₂ b₃ ws hb hb₁ hne hb₂ hb₃ he =>
    simp only [List.append_assoc, List.cons_append]
    refine (reads_skipBlanks hb (stops_cons (by decide))).next ?_
    refine (reads_keyword?_other rfl).next ?_
    rw [if_neg (by decide)]
    refine (reads_keyword? "local" (Delimited.of_blanks hb₁ hne).stops_name).next ?_
    rw [if_pos rfl]
    refine (reads_bindingDeclaration hb₁ hne hb₂ hb₃ hd.name he hd.expression).bind
      fun d' hd' => .pure ?_
    rw [Option.map_some, Option.map_some, hd']

/-- The body after the declarations is none of them. -/
theorem reads_declaration?_stop {body : Body} {b ws : List Char} (hb : Blanks b)
    (h : BodyScanned body ws) : Reads id declaration? (b ++ (ws ++ rest)) (ws ++ rest) none := by
  unfold declaration?
  cases h with
  | pattern h =>
    cases h
    refine (reads_skipBlanks hb (stops_cons (by decide))).next ?_
    exact (reads_keyword?_other rfl).next ((reads_keyword?_other rfl).next (.pure rfl))
  | choice _ =>
    refine (reads_skipBlanks hb (stops_cons (by decide))).next ?_
    exact (reads_keyword?_other rfl).next ((reads_keyword?_other rfl).next (.pure rfl))

/-! ## Selectors and variants -/

theorem reads_selector? {name : String} {ws : List Char} (h : SelectorWritten name ws)
    (hname : IsName name) (hr : Stops isNameChar rest) :
    Reads id selector? (ws ++ rest) rest (some name) := by
  cases h with
  | @mk b hb hne =>
    simp only [List.append_assoc, List.cons_append]
    unfold selector?
    refine (reads_skipBlanks hb (stops_cons (by decide))).next (reads_peek.next ?_)
    rw [List.head?_cons, if_pos rfl]
    dsimp only
    rw [List.isEmpty_eq_false_iff.mpr hne, if_neg (by decide)]
    exact (reads_skip 1).next ((reads_name hname hr).next (.pure rfl))

/-- Where no variable is next, the blanks before what is next are passed over. -/
theorem reads_selector?_stop {b cs : List Char} {c : Char} (hb : Blanks b) (hc : isBlank c = false)
    (hdollar : c ≠ '$') : Reads id selector? (b ++ c :: cs) (c :: cs) none := by
  unfold selector?
  refine (reads_skipBlanks hb (stops_cons hc)).next (reads_peek.next ?_)
  rw [List.head?_cons, if_neg fun heq => hdollar (Option.some.inj heq)]
  exact .pure rfl

theorem reads_selectors {names : List String} {ws b cs : List Char} {c : Char}
    (h : WrittenAll SelectorWritten names ws) (hnames : ∀ s ∈ names, IsName s) (hb : Blanks b)
    (hc : isBlank c = false) (hdollar : c ≠ '$') (hr : Stops isNameChar (b ++ c :: cs)) :
    Reads id (collect fun _ => selector?) (ws ++ (b ++ c :: cs)) (c :: cs) names := by
  refine reads_collect (G := fun _ names => ∀ s ∈ names, IsName s) ?_ ?_
    (fun _ _ => reads_selector?_stop hb hc hdollar) h hnames
  · intro _ name names ws vs hnames hw hvs
    have hstops : Stops isNameChar (vs ++ (b ++ c :: cs)) := by
      cases hvs with
      | nil => exact hr
      | cons hv _ =>
        rw [List.append_assoc]
        exact hv.delimited.stops_name
    exact ⟨hw.ne_nil, reads_selector? hw (hnames name List.mem_cons_self) hstops⟩
  · exact fun _ _ _ hnames s hs => hnames s (List.mem_cons_of_mem _ hs)

theorem reads_key? {k : VariantKey} {ws b : List Char} (h : KeyText k ws) (hb : Blanks b)
    (hr : Stops isBlank rest) (hapart : Apart ws (b ++ rest)) :
    Reads id key? (ws ++ (b ++ rest)) rest (some k) := by
  unfold key?
  refine reads_peek.next ?_
  have hblanks := reads_skipBlanks hb hr
  cases h with
  | catchAll => exact (reads_skip 1).next (hblanks.next (.pure rfl))
  | @literal s ws h =>
    have hread : Reads id literal (ws ++ (b ++ rest)) (b ++ rest) s := by
      cases h with
      | bars h => exact reads_literal_bars h
      | @bare c cs hs _ hall =>
        have hlast : (c :: cs).getLast (List.cons_ne_nil _ _) ∈ s.toList.getLast? := by
          rw [hs]
          exact List.getLast?_eq_some_getLast _
        exact reads_literal_bare hs hall (hapart _ hlast (hall _ (List.getLast_mem _)))
    obtain ⟨c, cs, rfl, hc⟩ := h.exists_cons
    rw [List.cons_append, List.head?_cons]
    split
    · next heq => exact absurd (Option.some.inj heq) (h.head_ne (by decide) (by decide))
    · next heq =>
      cases heq
      rw [if_pos]
      · exact hread.next (hblanks.next (.pure rfl))
      · rcases hc with hc | ⟨hc, -⟩
        · simp [hc]
        · simp [hc]
    · next heq => cases heq

theorem reads_keys {ks : List VariantKey} {ws : List Char} (h : KeysScanned ks ws) (cs : List Char)
    (found : List VariantKey) :
    Reads (List.map id) (collectFrom (fun _ => key?) found) (ws ++ '\x7b' :: cs) ('\x7b' :: cs)
      (found ++ ks) := by
  induction h generalizing found with
  | nil =>
    rw [List.nil_append, List.append_nil]
    refine reads_collectFrom_stop ?_
    unfold key?
    exact reads_peek.next (.pure rfl)
  | @cons k ks ws b vs hk hb hapart hks ih =>
    have hbrace : Stops isLiteralChar ('\x7b' :: cs) := stops_cons (by decide)
    have hblank : Stops isBlank ('\x7b' :: cs) := stops_cons (by decide)
    have hread := reads_key? hk hb (hks.stops_blank hblank)
      (List.append_assoc b vs _ ▸ hapart.append hbrace)
    rw [List.append_assoc, List.append_assoc]
    rw [← Option.map_id] at hread
    refine reads_collectFrom_step hread ?_ fun k' _ => ?_
    · have hpos := List.length_pos_iff.mpr hk.ne_nil
      simp only [List.length_append]
      omega
    · have hrest := ih (found ++ [k'])
      rwa [List.append_assoc, List.singleton_append] at hrest

theorem reads_variant? {v : Variant} {ws : List Char} (h : VariantScanned v ws)
    (hpattern : PatternWellFormed v.pattern) :
    Reads (Option.map Variant.unplaced) variant? (ws ++ rest) rest (some v) := by
  obtain @⟨b, ws, vs, hb, hne, hks, hq⟩ := h
  have hquoted : Reads (List.map PatternItem.unplaced) Scanner.quotedPattern (vs ++ rest) rest
      v.pattern := reads_quotedPattern hq hpattern
  obtain ⟨us, rfl⟩ := hq.exists_brace
  rw [List.append_assoc, List.append_assoc, List.cons_append]
  have hstops : Stops isBlank (ws ++ '\x7b' :: (us ++ rest)) :=
    hks.stops_blank (stops_cons (by decide))
  have hsome : (ws ++ '\x7b' :: (us ++ rest)).head?.isNone = false := by
    cases ws with
    | nil => rfl
    | cons c cs => rfl
  have hread := reads_keys hks (us ++ rest) []
  rw [List.map_id_fun, List.nil_append] at hread
  unfold variant?
  refine (reads_skipBlanks hb hstops).next (reads_peek.next ?_)
  rw [hsome, if_neg (by decide)]
  refine reads_position.bind fun start _ => hread.next ?_
  dsimp only
  rw [List.isEmpty_eq_false_iff.mpr hne, if_neg (by decide)]
  refine hquoted.bind fun p hp => (reads_spanFrom start).bind fun _ _ => .pure ?_
  rw [Option.map_some, Option.map_some, Variant.unplaced, Variant.unplaced, hp]

theorem reads_variant?_stop {b : List Char} (hb : Blanks b) : Reads id variant? b [] none := by
  have hread := reads_skipBlanks hb (stops_nil isBlank)
  rw [List.append_nil] at hread
  unfold variant?
  exact hread.next (reads_peek.next (.pure rfl))

/-- Variants are read up to the end of the text. -/
theorem reads_variants {vs : List Variant} {ws b : List Char} (h : WrittenAll VariantScanned vs ws)
    (hvs : ∀ v ∈ vs, PatternWellFormed v.pattern) (hb : Blanks b) :
    Reads (List.map Variant.unplaced) (collect fun _ => variant?) (ws ++ b) [] vs := by
  refine reads_collectFrom Variant.unplaced
    (G := fun _ vs => ∀ v ∈ vs, PatternWellFormed v.pattern) ?_ ?_ ?_ h hvs
  · exact fun _ v vs ws us hvs hw _ => ⟨hw.ne_nil, reads_variant? hw (hvs v List.mem_cons_self)⟩
  · exact fun _ _ _ _ hvs _ v hv => hvs v (List.mem_cons_of_mem _ hv)
  · exact fun _ _ => reads_variant?_stop hb

theorem reads_matcher {m : Matcher} {ws b : List Char} (h : MatcherScanned m ws)
    (hm : m.PiecesWellFormed) (hb : Blanks b) : Reads Matcher.unplaced matcher (ws ++ b) [] m := by
  obtain @⟨ws, vs, hs, hv, hne, hstops⟩ := h
  obtain ⟨b₁, c, cs, rfl, hb₁, hc, hdollar, hfirst⟩ := hv.exists_first hne
  have hselectors : Reads id (collect fun _ => selector?) (ws ++ (b₁ ++ c :: (cs ++ b)))
      (c :: (cs ++ b)) m.selectors := by
    refine reads_selectors hs hm.selectors hb₁ hc hdollar ?_
    cases b₁ with
    | nil => exact stops_cons (hstops c cs rfl)
    | cons d ds => exact stops_cons (hstops d _ rfl)
  rw [List.append_assoc, List.append_assoc, List.cons_append]
  unfold matcher
  refine reads_position.bind fun start _ => hselectors.next ?_
  dsimp only
  rw [List.isEmpty_eq_false_iff.mpr hm.nonempty, if_neg (by decide)]
  refine (reads_variants hfirst hm.patterns hb).bind fun variants hvariants => ?_
  have hnonempty : variants.isEmpty = false := by
    rw [List.isEmpty_eq_false_iff]
    rintro rfl
    exact hne (List.map_eq_nil_iff.mp hvariants.symm)
  rw [hnonempty, if_neg (by decide)]
  refine (reads_spanFrom start).bind fun _ _ => .pure ?_
  rw [Matcher.unplaced, Matcher.unplaced, hvariants]

/-! ## Messages -/

/-- After a body there may be blanks left, which a pattern leaves and variants do not. -/
theorem reads_body {body : Body} {ws b : List Char} (h : BodyScanned body ws)
    (hbody : body.PiecesWellFormed) (hb : Blanks b) :
    ∃ b', Blanks b' ∧ Reads Body.unplaced Scanner.body (ws ++ b) b' body := by
  cases h with
  | @pattern p ws h =>
    refine ⟨b, hb, ?_⟩
    have hread : Reads (List.map PatternItem.unplaced) Scanner.quotedPattern (ws ++ b) b p :=
      reads_quotedPattern h hbody
    cases h
    unfold Scanner.body
    refine (reads_keyword?_other rfl).next ?_
    rw [if_neg (by decide)]
    refine (reads_startsWith _).next ?_
    refine hread.bind fun p' hp' => .pure ?_
    rw [Body.unplaced, Body.unplaced, hp']
  | @choice m ws hm =>
    refine ⟨[], blanks_nil, ?_⟩
    have hword : Stops isNameChar (ws ++ b) := by
      obtain @⟨ws, vs, hs, -⟩ := hm
      rw [List.append_assoc]
      exact (hs.delimited (fun _ _ _ h => h.delimited) fun hnil =>
        absurd hnil hbody.nonempty).stops_name
    rw [List.append_assoc]
    unfold Scanner.body
    refine (reads_keyword? "match" hword).next ?_
    rw [if_pos rfl]
    refine (reads_matcher hm hbody hb).bind fun m' hm' => .pure ?_
    rw [Body.unplaced, Body.unplaced, hm']

/-- A message is read from declarations and a scanned form of its body, whether or not its pieces
fit together. -/
theorem reads_complexMessage {m : Message} {ws b vs b₁ : List Char}
    (h : WrittenAll DeclarationWritten m.declarations ws) (hb : Blanks b)
    (hbody : BodyScanned m.body vs) (hb₁ : Blanks b₁) (hm : m.PiecesWellFormed) :
    Reads Message.unplaced complexMessage (ws ++ (b ++ (vs ++ b₁))) [] m := by
  have hdeclarations : Reads (List.map Declaration.unplaced) (collect fun _ => declaration?)
      (ws ++ (b ++ (vs ++ b₁))) (vs ++ b₁) m.declarations := by
    refine reads_collectFrom Declaration.unplaced
      (G := fun _ ds => ∀ d ∈ ds, d.WellFormed) ?_ ?_ ?_ h hm.declarations
    · intro _ d ds us _ hds hd _
      exact ⟨hd.ne_nil, reads_declaration? hd (hds d List.mem_cons_self)⟩
    · exact fun _ _ _ _ hds _ d hd => hds d (List.mem_cons_of_mem _ hd)
    · exact fun _ _ => reads_declaration?_stop hb hbody
  obtain ⟨b', hb', hread⟩ := reads_body hbody hm.body hb₁
  have hend := reads_skipBlanks hb' (stops_nil isBlank)
  rw [List.append_nil] at hend
  unfold complexMessage
  refine hdeclarations.bind fun ds hds => hread.bind fun body hbody' => hend.next ?_
  refine reads_peek.next (.pure ?_)
  rw [Message.unplaced, Message.unplaced, hds, hbody']

theorem reads_simpleMessage {p : Pattern} {ws : List Char} (h : WrittenAll ItemWritten p ws)
    (hp : PatternWellFormed p) : Reads Message.unplaced simpleMessage ws [] ⟨[], .pattern p⟩ := by
  have hread : Reads (List.map PatternItem.unplaced) (pattern false) (ws ++ []) [] p :=
    reads_pattern h hp .simple
  rw [List.append_nil] at hread
  unfold simpleMessage
  refine hread.bind fun p' hp' => .pure ?_
  rw [Message.unplaced, Message.unplaced, Body.unplaced, Body.unplaced, hp']

end Scanner

end Phrasebook
