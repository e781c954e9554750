import Mathlib.Data.List.Chain
import Phrasebook.Proofs.Correspondence
import Phrasebook.Proofs.Tiling

/-!
Simple messages one after the other.

The sources of two simple messages in a row are the source of a simple message. Its pattern is the
first pattern and then the second, and texts that meet at the seam are one text
(`Pattern.Joined`). What it shows is therefore what the first message shows and then what the second
one does, and it fails where the first of them fails. Main statement: `Formatter.format_append`.
-/

namespace Phrasebook

/-! ## Written forms in a row -/

theorem WrittenAll.of_append {α : Type} {W : α → List Char → Prop} {as bs : List α}
    {us : List Char} (h : WrittenAll W (as ++ bs) us) :
    ∃ ws vs, us = ws ++ vs ∧ WrittenAll W as ws ∧ WrittenAll W bs vs := by
  induction as generalizing us with
  | nil => exact ⟨[], us, rfl, .nil, h⟩
  | cons a as ih =>
    cases h with
    | @cons _ _ ws _ ha hrest =>
      obtain ⟨vs, xs, rfl, has, hbs⟩ := ih hrest
      exact ⟨ws ++ vs, xs, by rw [List.append_assoc], .cons ha has, hbs⟩

theorem Escaped.append {plain : Char → Prop} {cs ds ws vs : List Char} (h : Escaped plain cs ws)
    (h' : Escaped plain ds vs) : Escaped plain (cs ++ ds) (ws ++ vs) := by
  induction h with
  | nil => exact h'
  | plain hc _ ih => exact .plain hc ih
  | escaped hc _ ih => exact .escaped hc ih

theorem Laid.written {p : Position} {items : Pattern} {ws : List Char} (h : Laid p items ws) :
    WrittenAll ItemWritten items ws := by
  induction h with
  | nil => exact .nil
  | cons hitem _ ih => exact .cons hitem.written ih

/-! ## Patterns in a row -/

theorem textsParted_iff_isChain (p : Pattern) :
    TextsParted p ↔ p.IsChain fun a b => ¬ (a.IsText ∧ b.IsText) := by
  induction p with
  | nil => simp [TextsParted]
  | cons a p ih =>
    cases p with
    | nil => simp [TextsParted]
    | cons b rest => rw [TextsParted, List.isChain_cons_cons, ih]

/-- The first pattern and then the second. A text that ends the first and one that starts the
second are one text. -/
inductive Pattern.Joined : Pattern → Pattern → Pattern → Prop
  | apart {p q : Pattern} :
      (∀ i ∈ p.getLast?, ∀ j ∈ q.head?, ¬ (i.IsText ∧ j.IsText)) → Joined p q (p ++ q)
  | merged {p q : Pattern} {s t : String} :
      Joined (p ++ [.text s]) (.text t :: q) (p ++ .text (s ++ t) :: q)

namespace Pattern

theorem exists_joined (p q : Pattern) : ∃ r, Joined p q r := by
  by_cases h : ∃ s t, PatternItem.text s ∈ p.getLast? ∧ PatternItem.text t ∈ q.head?
  · obtain ⟨s, t, hp, hq⟩ := h
    obtain ⟨q', rfl⟩ := List.head?_eq_some_iff.mp hq
    rw [← List.dropLast_append_getLast? _ hp]
    exact ⟨_, .merged⟩
  · refine ⟨p ++ q, .apart fun i hi j hj hboth => h ?_⟩
    cases i with
    | text s =>
      cases j with
      | text t => exact ⟨s, t, hi, hj⟩
      | expression _ => exact hboth.2.elim
      | markup _ => exact hboth.2.elim
    | expression _ => exact hboth.1.elim
    | markup _ => exact hboth.1.elim

theorem Joined.written {p q r : Pattern} {ws vs : List Char} (h : Joined p q r)
    (hp : WrittenAll ItemWritten p ws) (hq : WrittenAll ItemWritten q vs) :
    WrittenAll ItemWritten r (ws ++ vs) := by
  cases h with
  | apart _ => exact hp.append hq
  | @merged p q s t =>
    obtain ⟨us, xs, rfl, hfirst, hlast⟩ := hp.of_append
    cases hlast with
    | @cons _ _ xs _ hs hnil =>
      cases hnil
      cases hq with
      | @cons _ _ ys vs ht hrest =>
        have hmerged : ItemWritten (.text (s ++ t)) (xs ++ ys) := by
          cases hs with
          | text hs =>
            cases ht with
            | text ht => exact .text (String.toList_append ▸ hs.append ht)
        simpa using hfirst.append (.cons hmerged hrest)

theorem Joined.wellFormed {p q r : Pattern} (h : Joined p q r) (hp : PatternWellFormed p)
    (hq : PatternWellFormed q) : PatternWellFormed r := by
  have hpChain := (textsParted_iff_isChain _).mp hp.parted
  have hqChain := (textsParted_iff_isChain _).mp hq.parted
  cases h with
  | apart hseam =>
    refine ⟨List.forall_mem_append.mpr ⟨hp.items, hq.items⟩, ?_⟩
    exact (textsParted_iff_isChain _).mpr (hpChain.append hqChain hseam)
  | @merged p q s t =>
    obtain ⟨hpItems, hlast⟩ := List.forall_mem_append.mp hp.items
    obtain ⟨-, hqItems⟩ := List.forall_mem_cons.mp hq.items
    obtain ⟨hpChain, -, hseam⟩ := List.isChain_append.mp hpChain
    obtain ⟨hnext, hqChain⟩ := List.isChain_cons.mp hqChain
    have hmerged : (PatternItem.text (s ++ t)).WellFormed := by
      have hs : s ≠ "" := hlast _ (List.mem_singleton.mpr rfl)
      exact fun hempty => hs (String.append_eq_empty_iff.mp hempty).1
    refine ⟨List.forall_mem_append.mpr ⟨hpItems, List.forall_mem_cons.mpr ⟨hmerged, hqItems⟩⟩, ?_⟩
    refine (textsParted_iff_isChain _).mpr (hpChain.append (List.isChain_cons.mpr ?_) ?_)
    · exact ⟨hnext, hqChain⟩
    · rintro i hi _ ⟨⟩
      exact hseam i hi (.text s) rfl

end Pattern

/-! ## Sources in a row -/

namespace Message

theorem ne_of_isComplex_eq_false {ws : List Char} (h : isComplex ws = false) :
    ∀ b rest, Blanks b → ws ≠ b ++ '.' :: rest := by
  rintro b rest hb rfl
  rw [isComplex_blanks hb (by decide)] at h
  cases h

/-- A full stop that comes first, after blanks, in texts in a row does so in one of them. -/
theorem append_ne_of_isComplex_eq_false {ws vs : List Char} (h : isComplex ws = false)
    (h' : isComplex vs = false) : ∀ b rest, Blanks b → ws ++ vs ≠ b ++ '.' :: rest := by
  intro b rest hb heq
  rcases List.append_eq_append_iff.mp heq with ⟨us, rfl, hvs⟩ | ⟨us, hws, hrest⟩
  · exact ne_of_isComplex_eq_false h' us rest (fun c hc => hb c (List.mem_append_right _ hc)) hvs
  · cases us with
    | nil => exact ne_of_isComplex_eq_false h' [] rest blanks_nil hrest.symm
    | cons c us =>
      cases hrest
      exact ne_of_isComplex_eq_false h b us hb hws

theorem exists_pattern_of_parse {source : String} {m : Message} (h : parse source = .ok m)
    (hsimple : isComplex source.toList = false) :
    ∃ p, m = ⟨[], .pattern p⟩ ∧ PatternWellFormed p ∧ WrittenAll ItemWritten p source.toList := by
  obtain ⟨hscan, -⟩ := of_parse h
  obtain ⟨p, rfl, hlaid⟩ := laid_of_scan hscan hsimple
  exact ⟨p, rfl, (piecesWellFormed_of_scan hscan).body, hlaid.written⟩

/-- Sources of simple messages in a row are the source of a simple message. -/
theorem parse_append {a b : String} {p q r : Pattern} (h : Pattern.Joined p q r)
    (ha : isComplex a.toList = false) (hb : isComplex b.toList = false)
    (hp : PatternWellFormed p) (hq : PatternWellFormed q)
    (hpa : WrittenAll ItemWritten p a.toList) (hqb : WrittenAll ItemWritten q b.toList) :
    isComplex (a ++ b).toList = false ∧
      ∃ m, parse (a ++ b) = .ok m ∧ m.unplaced = unplaced ⟨[], .pattern r⟩ := by
  have hitems : WrittenAll ItemWritten r (a ++ b).toList := by
    rw [String.toList_append]
    exact h.written hpa hqb
  have hstop : ∀ bs rest, Blanks bs → (a ++ b).toList ≠ bs ++ '.' :: rest := by
    rw [String.toList_append]
    exact append_ne_of_isComplex_eq_false ha hb
  refine ⟨isComplex_of_simple hitems hstop, ?_⟩
  have hwf : WellFormed ⟨[], .pattern r⟩ := ⟨by simp, by simp, h.wellFormed hp hq⟩
  have hparse := parse_of_written (.simple hitems hstop) hwf
  rwa [String.ofList_toList] at hparse

end Message

/-! ## Parts in a row -/

namespace Part

def IsText : Part → Prop
  | .text _ => True
  | _ => False

/-- Parts and then others. A text that ends the first and one that starts the others are one
text. -/
def join (ps qs : List Part) : List Part :=
  match ps.getLast?, qs.head? with
  | some (.text s), some (.text t) => ps.dropLast ++ .text (s ++ t) :: qs.tail
  | _, _ => ps ++ qs

theorem join_texts (ps qs : List Part) (s t : String) :
    join (ps ++ [.text s]) (.text t :: qs) = ps ++ .text (s ++ t) :: qs := by
  simp [join]

theorem join_of_apart {ps qs : List Part}
    (h : ∀ p ∈ ps.getLast?, ∀ q ∈ qs.head?, ¬ (p.IsText ∧ q.IsText)) : join ps qs = ps ++ qs := by
  unfold join
  split
  · next s t hp hq => exact absurd ⟨trivial, trivial⟩ (h (.text s) hp (.text t) hq)
  · rfl

end Part

namespace Formatter

/-- The text of a pattern in a scope. -/
def patternText (f : Formatter) (scope : Scope) (p : Pattern) : Except FormatError String := do
  let items ← p.mapM (f.resolveItem scope)
  return String.join (items.map f.itemText)

/-- The parts of a pattern in a scope. -/
def patternParts (f : Formatter) (scope : Scope) (p : Pattern) :
    Except FormatError (List Part) := do
  let items ← p.mapM (f.resolveItem scope)
  return items.flatMap f.itemParts

variable {f : Formatter} {scope : Scope}

theorem patternText_joined {p q r : Pattern} (h : Pattern.Joined p q r) :
    f.patternText scope r = do
      let s ← f.patternText scope p
      let t ← f.patternText scope q
      return s ++ t := by
  unfold patternText
  cases h with
  | apart _ =>
    rw [List.mapM_append]
    cases p.mapM (f.resolveItem scope) with
    | error e => rfl
    | ok xs =>
      cases q.mapM (f.resolveItem scope) with
      | error e => rfl
      | ok ys => simp [bind, Except.bind, pure, Except.pure]
  | @merged p q s t =>
    simp only [List.mapM_append, List.mapM_cons, List.mapM_nil]
    cases p.mapM (f.resolveItem scope) with
    | error e => rfl
    | ok xs =>
      cases q.mapM (f.resolveItem scope) with
      | error e => rfl
      | ok ys =>
        simp [bind, Except.bind, pure, Except.pure, resolveItem, itemText, String.append_assoc]

/-- Only a text of a pattern gives a part that is a text. -/
theorem isText_of_mem_itemParts {i : PatternItem} {x : ResolvedItem}
    (h : f.resolveItem scope i = .ok x) {part : Part} (hpart : part ∈ f.itemParts x)
    (htext : part.IsText) : i.IsText := by
  cases i with
  | text s => trivial
  | markup m =>
    cases h
    cases List.mem_singleton.mp hpart
    exact htext
  | expression e =>
    obtain ⟨value, -, rfl⟩ := Outcome.map_eq_ok h
    dsimp only [itemParts] at hpart
    split at hpart
    · simp only [List.mem_cons, List.not_mem_nil, or_false] at hpart
      rcases hpart with rfl | rfl | rfl <;> exact htext
    · cases List.mem_singleton.mp hpart
      exact htext

theorem itemParts_ne_nil (x : ResolvedItem) : f.itemParts x ≠ [] := by
  cases x with
  | text s => exact List.cons_ne_nil _ _
  | markup m options => exact List.cons_ne_nil _ _
  | expression source value =>
    dsimp only [itemParts]
    split <;> exact List.cons_ne_nil _ _

/-- The parts of a pattern start with a text only if the pattern does. -/
theorem isText_of_head? {p : Pattern} {xs : List ResolvedItem}
    (h : p.mapM (f.resolveItem scope) = .ok xs) {part : Part}
    (hpart : part ∈ (xs.flatMap f.itemParts).head?) (htext : part.IsText) :
    ∃ i ∈ p.head?, i.IsText := by
  cases p with
  | nil =>
    rw [List.mapM_nil] at h
    cases h
    cases hpart
  | cons i p =>
    rw [List.mapM_cons] at h
    obtain ⟨x, hx, h⟩ := Outcome.bind_eq_ok h
    obtain ⟨xs, -, h⟩ := Outcome.bind_eq_ok h
    cases h
    rw [List.flatMap_cons, List.head?_append_of_ne_nil _ (itemParts_ne_nil x)] at hpart
    exact ⟨i, rfl, isText_of_mem_itemParts hx (List.mem_of_head? hpart) htext⟩

/-- The parts of a pattern end with a text only if the pattern does. -/
theorem isText_of_getLast? {p : Pattern} {xs : List ResolvedItem}
    (h : p.mapM (f.resolveItem scope) = .ok xs) {part : Part}
    (hpart : part ∈ (xs.flatMap f.itemParts).getLast?) (htext : part.IsText) :
    ∃ i ∈ p.getLast?, i.IsText := by
  rcases List.eq_nil_or_concat p with rfl | ⟨p, i, rfl⟩
  · rw [List.mapM_nil] at h
    cases h
    cases hpart
  · rw [List.concat_eq_append, List.mapM_append] at h
    obtain ⟨xs, -, h⟩ := Outcome.bind_eq_ok h
    obtain ⟨ys, hys, h⟩ := Outcome.bind_eq_ok h
    cases h
    rw [List.mapM_cons] at hys
    obtain ⟨x, hx, hys⟩ := Outcome.bind_eq_ok hys
    cases hys
    rw [List.flatMap_append, List.reverse_nil, List.flatMap_singleton,
      List.getLast?_append_of_ne_nil _ (itemParts_ne_nil x)] at hpart
    exact ⟨i, by simp, isText_of_mem_itemParts hx (List.mem_of_getLast? hpart) htext⟩

theorem patternParts_joined {p q r : Pattern} (h : Pattern.Joined p q r) :
    f.patternParts scope r = do
      let ps ← f.patternParts scope p
      let qs ← f.patternParts scope q
      return Part.join ps qs := by
  unfold patternParts
  cases h with
  | apart hseam =>
    rw [List.mapM_append]
    cases hp : p.mapM (f.resolveItem scope) with
    | error e => rfl
    | ok xs =>
      cases hq : q.mapM (f.resolveItem scope) with
      | error e => rfl
      | ok ys =>
        have hapart : Part.join (xs.flatMap f.itemParts) (ys.flatMap f.itemParts) =
            xs.flatMap f.itemParts ++ ys.flatMap f.itemParts := by
          refine Part.join_of_apart fun a ha b hb hboth => ?_
          obtain ⟨i, hi, hitext⟩ := isText_of_getLast? hp ha hboth.1
          obtain ⟨j, hj, hjtext⟩ := isText_of_head? hq hb hboth.2
          exact hseam i hi j hj ⟨hitext, hjtext⟩
        simp [bind, Except.bind, pure, Except.pure, hapart]
  | @merged p q s t =>
    simp only [List.mapM_append, List.mapM_cons, List.mapM_nil]
    cases p.mapM (f.resolveItem scope) with
    | error e => rfl
    | ok xs =>
      cases q.mapM (f.resolveItem scope) with
      | error e => rfl
      | ok ys => simp [bind, Except.bind, pure, Except.pure, resolveItem, itemParts,
          Part.join_texts]

/-! ## Messages in a row -/

/-- A formatter for a message that is one pattern shows that pattern. -/
theorem format_of_pattern {f : Formatter} {p : Pattern} (h : f.message = ⟨[], .pattern p⟩)
    (arguments : Arguments) :
    f.format arguments = f.patternText { arguments } p ∧
      f.formatToParts arguments = f.patternParts { arguments } p := by
  constructor
  · rw [format, resolve, h]
    rfl
  · rw [formatToParts, resolve, h]
    rfl

/-- Two simple messages, one after the other, are a simple message. It shows what the first shows
and then what the second does, and fails as the first of them that fails. -/
theorem format_append {locale a b : String} {functions : FunctionTable} {localizer : Localizer}
    {isolates : Bool} {f g : Formatter}
    (hf : compile locale a functions localizer isolates = .ok f)
    (hg : compile locale b functions localizer isolates = .ok g)
    (ha : Message.isComplex a.toList = false) (hb : Message.isComplex b.toList = false) :
    Message.isComplex (a ++ b).toList = false ∧
      ∃ h, compile locale (a ++ b) functions localizer isolates = .ok h ∧ ∀ arguments,
        h.format arguments = (do
          let s ← f.format arguments
          let t ← g.format arguments
          return s ++ t) ∧
        h.formatToParts arguments = (do
          let ps ← f.formatToParts arguments
          let qs ← g.formatToParts arguments
          return Part.join ps qs) := by
  obtain ⟨ma, hma, hf'⟩ := Outcome.bind_eq_ok hf
  obtain ⟨mb, hmb, hg'⟩ := Outcome.bind_eq_ok hg
  obtain ⟨p, rfl, hp, hpa⟩ := Message.exists_pattern_of_parse hma ha
  obtain ⟨q, rfl, hq, hqb⟩ := Message.exists_pattern_of_parse hmb hb
  obtain ⟨r, hr⟩ := Pattern.exists_joined p q
  obtain ⟨hsimple, m, hm, hsame⟩ := Message.parse_append hr ha hb hp hq hpa hqb
  cases hf'
  cases hg'
  let h : Formatter := ⟨locale, a ++ b, m, functions, localizer, isolates⟩
  -- The message of both, before it is written and read.
  let k : Formatter := { h with message := ⟨[], .pattern r⟩ }
  refine ⟨hsimple, h, compile_of_parse hm, fun arguments => ?_⟩
  have hshows : h.ShowsLike k := showsLike_withMessage h _
  have hk := format_eq_of_unplaced_eq hshows hsame arguments
  have hjoined := format_of_pattern (f := k) rfl arguments
  constructor
  · exact hk.1.trans (hjoined.1.trans (patternText_joined hr))
  · exact hk.2.trans (hjoined.2.trans (patternParts_joined hr))

/-- A message that ends with an escaped brace, and one that starts with one. -/
def seamFormatter (source : String) (p : Pattern) : Formatter :=
  ⟨"en", source, ⟨[], .pattern p⟩, .builtins, .basic, true⟩

def openedFormatter : Formatter :=
  seamFormatter "\x7b#b\x7dHi \x7b$who :string\x7d \\\x7b"
    [.markup ⟨.opening, "b", [], ⟨0, 4, 1, 1⟩⟩, .text "Hi ",
      .expression ⟨some (.variable "who"), some ⟨"string", []⟩, ⟨7, 21, 1, 8⟩⟩, .text " \x7b"]

def closedFormatter : Formatter :=
  seamFormatter "\\\x7d\x7b/b\x7d \x7b$n :string\x7d"
    [.text "\x7d", .markup ⟨.closing, "b", [], ⟨2, 6, 1, 3⟩⟩, .text " ",
      .expression ⟨some (.variable "n"), some ⟨"string", []⟩, ⟨7, 19, 1, 8⟩⟩]

theorem format_append_seam :
    let f := openedFormatter
    let g := closedFormatter
    compile "en" f.source .builtins .basic true = .ok f ∧
      compile "en" g.source .builtins .basic true = .ok g ∧
      Message.isComplex f.source.toList = false ∧ Message.isComplex g.source.toList = false ∧
      ∃ h, compile "en" (f.source ++ g.source) .builtins .basic true = .ok h ∧
        h.format [("who", .string "Ann")] =
          .ok "Hi \u2068Ann\u2069 \x7b\x7d \u2068\x7b$n\x7d\u2069" := by
  intro f g
  have hf : compile "en" f.source .builtins .basic true = .ok f :=
    compile_of_parse (Outcome.eq_ok_of_toOption (by decide +kernel))
  have hg : compile "en" g.source .builtins .basic true = .ok g :=
    compile_of_parse (Outcome.eq_ok_of_toOption (by decide +kernel))
  have ha : Message.isComplex f.source.toList = false := by decide +kernel
  have hb : Message.isComplex g.source.toList = false := by decide +kernel
  obtain ⟨-, h, hh, hall⟩ := format_append hf hg ha hb
  refine ⟨hf, hg, ha, hb, h, hh, (hall _).1.trans ?_⟩
  exact congrArg Except.ok (by decide +kernel)

end Formatter

end Phrasebook
