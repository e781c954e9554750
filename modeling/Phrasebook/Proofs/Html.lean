import Phrasebook.View.Basic

/-!
What HTML tells about the view it was written from.

Neighbouring texts, empty texts and fragments leave no trace in HTML; `View.normalForm` is a view
without them. Everything else can be told: HTML is a row of tokens, each of which says where it
ends (`HtmlToken.append_inj`), and from the tokens the normal form is rebuilt from right to left
(`View.foldr_add_tokens`). Main statement: `View.html_eq_iff`.
-/

namespace Phrasebook

/-! ## Names -/

/-- Letters, digits and the hyphen, of ASCII. -/
def isTagChar (c : Char) : Bool := c.isAlphanum || c == '-'

/-- A name that tags and attributes may have. -/
def IsTagName (s : String) : Prop := s ≠ "" ∧ ∀ c ∈ s.toList, isTagChar c = true

theorem isTagName_iff (s : String) : s ≠ "" ∧ s.toList.all isTagChar = true ↔ IsTagName s := by
  simp [IsTagName]

instance : DecidablePred IsTagName := fun s => decidable_of_decidable_of_iff (isTagName_iff s)

/-- Where two runs of one kind of character end at characters of another kind, the runs are the
same. -/
theorem append_cons_inj {p : Char → Bool} {a b r s : List Char} {x y : Char}
    (ha : ∀ c ∈ a, p c = true) (hb : ∀ c ∈ b, p c = true) (hx : p x = false) (hy : p y = false)
    (h : a ++ x :: r = b ++ y :: s) : a = b ∧ x = y ∧ r = s := by
  induction a generalizing b with
  | nil =>
    cases b with
    | nil => simpa using h
    | cons d b =>
      obtain ⟨rfl, -⟩ := List.cons_eq_cons.mp h
      simp [hb x List.mem_cons_self] at hx
  | cons c a ih =>
    cases b with
    | nil =>
      obtain ⟨rfl, -⟩ := List.cons_eq_cons.mp h
      simp [ha c List.mem_cons_self] at hy
    | cons d b =>
      obtain ⟨rfl, hrest⟩ := List.cons_eq_cons.mp h
      obtain ⟨rfl, hxy⟩ := ih (List.forall_mem_cons.mp ha).2 (List.forall_mem_cons.mp hb).2 hrest
      exact ⟨rfl, hxy⟩

namespace View

mutual

/-- All tags and attributes in the view have names that they may have. -/
def WellNamed : View → Prop
  | .text _ => True
  | .element tag attributes children =>
    IsTagName tag ∧ (∀ a ∈ attributes, IsTagName a.1) ∧ WellNamedAll children
  | .fragment children => WellNamedAll children

def WellNamedAll : List View → Prop
  | [] => True
  | v :: rest => v.WellNamed ∧ WellNamedAll rest

end

/-! ## Normal forms -/

/-- A text before other views: nothing if it is empty, and part of the first view if that is a
text. -/
def addText (s : String) : List View → List View
  | .text t :: rest => .text (s ++ t) :: rest
  | views => if s = "" then views else .text s :: views

mutual

/-- The normal form of a view before views in normal form. -/
def normalizeOnto : View → List View → List View
  | .text s, rest => addText s rest
  | .element tag attributes children, rest =>
    .element tag attributes (normalizeAllOnto children []) :: rest
  | .fragment children, rest => normalizeAllOnto children rest

/-- The normal form of views before views in normal form. -/
def normalizeAllOnto : List View → List View → List View
  | [], rest => rest
  | v :: others, rest => v.normalizeOnto (normalizeAllOnto others rest)

end

/-- The view as a row of views without fragments, empty texts and neighbouring texts. -/
def normalForm (v : View) : List View := v.normalizeOnto []

theorem addText_empty (views : List View) : addText "" views = views := by
  unfold addText
  split <;> simp

theorem addText_append (a b : String) (views : List View) :
    addText (a ++ b) views = addText a (addText b views) := by
  unfold addText
  split
  · simp [String.append_assoc]
  · next hne =>
    by_cases hb : b = ""
    · simp [hb]
    · simp [hb]

/-! ## Escapes -/

/-- No special character but the one that begins a reference stands first. -/
theorem escapeChar_eq_cons (c : Char) :
    ∃ x rest, escapeChar c = x :: rest ∧ x ≠ '<' ∧ x ≠ '"' := by
  unfold escapeChar
  split
  all_goals first | exact ⟨'&', _, rfl, by decide, by decide⟩ | skip
  next hlt _ _ hquote _ => exact ⟨c, [], rfl, hlt, hquote⟩

theorem escapeChar_append_inj {c d : Char} {r s : List Char}
    (h : escapeChar c ++ r = escapeChar d ++ s) : c = d ∧ r = s := by
  unfold escapeChar at h
  -- Each special character against each other one: no reference begins another.
  split at h <;> split at h <;> simp at h <;> grind

/-- A quoted value ends at the first quote. -/
theorem flatMap_escapeChar_inj {cs ds r s : List Char}
    (h : cs.flatMap escapeChar ++ '"' :: r = ds.flatMap escapeChar ++ '"' :: s) :
    cs = ds ∧ r = s := by
  induction cs generalizing ds with
  | nil =>
    cases ds with
    | nil => simpa using h
    | cons d ds =>
      obtain ⟨x, rest, hd, -, hquote⟩ := escapeChar_eq_cons d
      simp [hd] at h
      exact absurd h.1.symm hquote
  | cons c cs ih =>
    cases ds with
    | nil =>
      obtain ⟨x, rest, hc, -, hquote⟩ := escapeChar_eq_cons c
      simp [hc] at h
      exact absurd h.1 hquote
    | cons d ds =>
      rw [List.flatMap_cons, List.flatMap_cons, List.append_assoc, List.append_assoc] at h
      obtain ⟨rfl, hrest⟩ := escapeChar_append_inj h
      obtain ⟨rfl, hrs⟩ := ih hrest
      exact ⟨rfl, hrs⟩

/-! ## Attributes -/

theorem toList_attributesHtml_cons (name value : String) (rest : List (String × String)) :
    (attributesHtml ((name, value) :: rest)).toList =
      ' ' :: (name.toList ++ '=' :: '"' ::
        (value.toList.flatMap escapeChar ++ '"' :: (attributesHtml rest).toList)) := by
  simp [attributesHtml, escape]

/-- The attributes of a tag end at the first bracket. -/
theorem attributesHtml_inj {as bs : List (String × String)} (ha : ∀ a ∈ as, IsTagName a.1)
    (hb : ∀ b ∈ bs, IsTagName b.1) {r s : List Char}
    (h : (attributesHtml as).toList ++ '>' :: r = (attributesHtml bs).toList ++ '>' :: s) :
    as = bs ∧ r = s := by
  induction as generalizing bs with
  | nil =>
    cases bs with
    | nil => simpa [attributesHtml] using h
    | cons b bs => simp [attributesHtml] at h
  | cons a as ih =>
    cases bs with
    | nil => simp [attributesHtml] at h
    | cons b bs =>
      obtain ⟨ha, has⟩ := List.forall_mem_cons.mp ha
      obtain ⟨hb, hbs⟩ := List.forall_mem_cons.mp hb
      rw [toList_attributesHtml_cons, toList_attributesHtml_cons] at h
      simp only [List.cons_append, List.append_assoc, List.cons.injEq, true_and] at h
      obtain ⟨hname, -, h⟩ := append_cons_inj ha.2 hb.2 (by decide) (by decide) h
      obtain ⟨hvalue, h⟩ := flatMap_escapeChar_inj (List.cons_eq_cons.mp h).2
      obtain ⟨rfl, hrs⟩ := ih has hbs h
      have hab : a = b := Prod.ext (String.toList_inj.mp hname) (String.toList_inj.mp hvalue)
      exact ⟨by rw [hab], hrs⟩

end View

/-! ## Tokens -/

/-- A piece of HTML. -/
inductive HtmlToken where
  | char (c : Char)
  | opening (tag : String) (attributes : List (String × String))
  | closing (tag : String)

namespace HtmlToken

/-- The token as it is written. -/
def written : HtmlToken → List Char
  | .char c => View.escapeChar c
  | .opening tag attributes =>
    '<' :: (tag.toList ++ ((View.attributesHtml attributes).toList ++ ['>']))
  | .closing tag => '<' :: '/' :: (tag.toList ++ ['>'])

def WellNamed : HtmlToken → Prop
  | .char _ => True
  | .opening tag attributes => IsTagName tag ∧ ∀ a ∈ attributes, IsTagName a.1
  | .closing tag => IsTagName tag

theorem written_ne_nil (t : HtmlToken) : t.written ≠ [] := by
  cases t with
  | char c =>
    obtain ⟨x, rest, hc, -, -⟩ := View.escapeChar_eq_cons c
    simp [written, hc]
  | opening tag attributes => simp [written]
  | closing tag => simp [written]

/-- What follows the name of a tag is no part of the name. -/
theorem exists_attributesHtml_append (attributes : List (String × String)) (r : List Char) :
    ∃ x rest, (View.attributesHtml attributes).toList ++ '>' :: r = x :: rest ∧
      isTagChar x = false := by
  cases attributes with
  | nil => exact ⟨'>', r, by simp [View.attributesHtml], by decide⟩
  | cons a attributes =>
    rw [View.toList_attributesHtml_cons]
    exact ⟨' ', _, rfl, by decide⟩

theorem opening_append_inj {tag tag' : String} {as bs : List (String × String)}
    (ht : (opening tag as).WellNamed) (hu : (opening tag' bs).WellNamed) {r s : List Char}
    (h : (opening tag as).written ++ r = (opening tag' bs).written ++ s) :
    opening tag as = opening tag' bs ∧ r = s := by
  simp only [written, List.cons_append, List.append_assoc, List.cons.injEq, true_and,
    List.nil_append] at h
  obtain ⟨x, rest, hx, hxp⟩ := exists_attributesHtml_append as r
  obtain ⟨y, rest', hy, hyp⟩ := exists_attributesHtml_append bs s
  rw [hx, hy] at h
  obtain ⟨htag, hxy, hrest⟩ := append_cons_inj ht.1.2 hu.1.2 hxp hyp h
  rw [← hxy, ← hrest, ← hx] at hy
  obtain ⟨has, hrs⟩ := View.attributesHtml_inj ht.2 hu.2 hy.symm
  exact ⟨by rw [String.toList_inj.mp htag, has], hrs⟩

theorem closing_append_inj {tag tag' : String} (ht : (closing tag).WellNamed)
    (hu : (closing tag').WellNamed) {r s : List Char}
    (h : (closing tag).written ++ r = (closing tag').written ++ s) :
    closing tag = closing tag' ∧ r = s := by
  simp only [written, List.cons_append, List.append_assoc, List.cons.injEq, true_and,
    List.nil_append] at h
  obtain ⟨htag, -, hrs⟩ := append_cons_inj ht.2 hu.2 (by decide) (by decide) h
  exact ⟨by rw [String.toList_inj.mp htag], hrs⟩

/-- A character of text is written without a bracket in front. -/
theorem char_append_ne (c : Char) (r s : List Char) :
    (char c).written ++ r ≠ '<' :: s := by
  obtain ⟨x, rest, hc, hx, -⟩ := View.escapeChar_eq_cons c
  simp [written, hc, hx]

/-- The name of an opening tag does not begin with a slash. -/
theorem opening_append_ne_closing {tag tag' : String} {as : List (String × String)}
    (ht : (opening tag as).WellNamed) (r s : List Char) :
    (opening tag as).written ++ r ≠ (closing tag').written ++ s := by
  intro h
  obtain ⟨hne, hchars⟩ := ht.1
  cases hcs : tag.toList with
  | nil => exact hne (String.toList_eq_nil_iff.mp hcs)
  | cons c cs =>
    simp only [written, hcs, List.cons_append, List.cons.injEq, true_and] at h
    have hc : isTagChar c = true := hchars c (by simp [hcs])
    rw [h.1] at hc
    exact absurd hc (by decide)

/-- Each token says where it ends, so a row of tokens can be cut in one way only. -/
theorem append_inj {t u : HtmlToken} (ht : t.WellNamed) (hu : u.WellNamed) {r s : List Char}
    (h : t.written ++ r = u.written ++ s) : t = u ∧ r = s := by
  cases t with
  | char c =>
    cases u with
    | char d =>
      obtain ⟨rfl, hrs⟩ := View.escapeChar_append_inj h
      exact ⟨rfl, hrs⟩
    | opening tag' bs => exact absurd h (char_append_ne c r _)
    | closing tag' => exact absurd h (char_append_ne c r _)
  | opening tag as =>
    cases u with
    | char d => exact absurd h.symm (char_append_ne d s _)
    | opening tag' bs => exact opening_append_inj ht hu h
    | closing tag' => exact absurd h (opening_append_ne_closing ht r s)
  | closing tag =>
    cases u with
    | char d => exact absurd h.symm (char_append_ne d s _)
    | opening tag' bs => exact absurd h.symm (opening_append_ne_closing hu s r)
    | closing tag' => exact closing_append_inj ht hu h

theorem flatMap_written_inj {ts us : List HtmlToken} (ht : ∀ t ∈ ts, t.WellNamed)
    (hu : ∀ u ∈ us, u.WellNamed) (h : ts.flatMap written = us.flatMap written) : ts = us := by
  induction ts generalizing us with
  | nil =>
    cases us with
    | nil => rfl
    | cons u us => simp [written_ne_nil] at h
  | cons t ts ih =>
    cases us with
    | nil => simp [written_ne_nil] at h
    | cons u us =>
      obtain ⟨htFirst, hts⟩ := List.forall_mem_cons.mp ht
      obtain ⟨huFirst, hus⟩ := List.forall_mem_cons.mp hu
      rw [List.flatMap_cons, List.flatMap_cons] at h
      obtain ⟨rfl, hrest⟩ := append_inj htFirst huFirst h
      rw [ih hts hus hrest]

/-- Puts a token before views that are read from right to left: a closing tag begins a row of
children, and the opening tag that belongs to it makes an element of them. -/
def add : HtmlToken → List (List View) → List (List View)
  | .char c, views :: outer => View.addText (String.ofList [c]) views :: outer
  | .closing _, rows => [] :: rows
  | .opening tag attributes, children :: views :: outer =>
    (.element tag attributes children :: views) :: outer
  | _, rows => rows

end HtmlToken

namespace View

mutual

/-- The tokens that the HTML of a view is made of. -/
def tokens : View → List HtmlToken
  | .text s => s.toList.map .char
  | .element tag attributes children =>
    .opening tag attributes :: (tokensAll children ++ [.closing tag])
  | .fragment children => tokensAll children

def tokensAll : List View → List HtmlToken
  | [] => []
  | v :: rest => v.tokens ++ tokensAll rest

end

mutual

theorem toList_html (v : View) : v.html.toList = v.tokens.flatMap HtmlToken.written := by
  cases v with
  | text s => simp [html, tokens, escape, List.flatMap_map, HtmlToken.written]
  | element tag attributes children =>
    simp [html, tokens, HtmlToken.written, toList_htmls children]
  | fragment children => exact toList_htmls children

theorem toList_htmls (vs : List View) :
    (htmls vs).toList = (tokensAll vs).flatMap HtmlToken.written := by
  cases vs with
  | nil => simp [htmls, tokensAll]
  | cons v rest => simp [htmls, tokensAll, toList_html v, toList_htmls rest]

end

mutual

theorem wellNamed_tokens (v : View) (h : v.WellNamed) : ∀ t ∈ v.tokens, t.WellNamed := by
  cases v with
  | text s => simp [tokens, HtmlToken.WellNamed]
  | element tag attributes children =>
    obtain ⟨htag, hattributes, hchildren⟩ := h
    have hinside := wellNamed_tokensAll children hchildren
    rw [tokens]
    refine List.forall_mem_cons.mpr ⟨⟨htag, hattributes⟩, ?_⟩
    exact List.forall_mem_append.mpr ⟨hinside, List.forall_mem_singleton.mpr htag⟩
  | fragment children => exact wellNamed_tokensAll children h

theorem wellNamed_tokensAll (vs : List View) (h : WellNamedAll vs) :
    ∀ t ∈ tokensAll vs, t.WellNamed := by
  cases vs with
  | nil => simp [tokensAll]
  | cons v rest =>
    rw [tokensAll]
    exact List.forall_mem_append.mpr ⟨wellNamed_tokens v h.1, wellNamed_tokensAll rest h.2⟩

end

theorem foldr_add_text (cs : List Char) (views : List View) (outer : List (List View)) :
    (cs.map HtmlToken.char).foldr HtmlToken.add (views :: outer) =
      addText (String.ofList cs) views :: outer := by
  induction cs with
  | nil => simp [addText_empty]
  | cons c cs ih =>
    have hcons : String.ofList (c :: cs) = String.ofList [c] ++ String.ofList cs := by
      rw [← String.ofList_append, List.singleton_append]
    rw [List.map_cons, List.foldr_cons, ih, HtmlToken.add, ← addText_append, ← hcons]

mutual

/-- Read from right to left, the tokens of a view give its normal form. -/
theorem foldr_add_tokens (v : View) (views : List View) (outer : List (List View)) :
    v.tokens.foldr HtmlToken.add (views :: outer) = v.normalizeOnto views :: outer := by
  cases v with
  | text s =>
    rw [tokens, foldr_add_text, String.ofList_toList]
    rfl
  | element tag attributes children =>
    have hinside := foldr_add_tokensAll children [] (views :: outer)
    simp [tokens, HtmlToken.add, hinside, normalizeOnto]
  | fragment children => exact foldr_add_tokensAll children views outer

theorem foldr_add_tokensAll (vs : List View) (views : List View) (outer : List (List View)) :
    (tokensAll vs).foldr HtmlToken.add (views :: outer) =
      normalizeAllOnto vs views :: outer := by
  cases vs with
  | nil => rfl
  | cons v rest =>
    rw [tokensAll, List.foldr_append, foldr_add_tokensAll rest, foldr_add_tokens v]
    rfl

end

/-! ## HTML of normal forms -/

theorem htmls_addText (s : String) (views : List View) :
    htmls (addText s views) = escape s ++ htmls views := by
  unfold addText
  split
  · simp [htmls, html, escape, String.append_assoc]
  · split
    · next hs => simp [hs, escape]
    · simp [htmls, html]

mutual

theorem htmls_normalizeOnto (v : View) (views : List View) :
    htmls (v.normalizeOnto views) = v.html ++ htmls views := by
  cases v with
  | text s => exact htmls_addText s views
  | element tag attributes children =>
    have hinside := htmls_normalizeAllOnto children []
    simp [normalizeOnto, htmls, html, hinside]
  | fragment children => exact htmls_normalizeAllOnto children views

theorem htmls_normalizeAllOnto (vs : List View) (views : List View) :
    htmls (normalizeAllOnto vs views) = htmls vs ++ htmls views := by
  cases vs with
  | nil => simp [normalizeAllOnto, htmls]
  | cons v rest =>
    rw [normalizeAllOnto, htmls_normalizeOnto v, htmls_normalizeAllOnto rest, htmls,
      String.append_assoc]

end

/-- A view and its normal form have the same HTML. -/
theorem htmls_normalForm (v : View) : htmls v.normalForm = v.html := by
  rw [normalForm, htmls_normalizeOnto, htmls, String.append_empty]

/-- Views have the same HTML just where they have the same normal form: no text and no value of an
attribute passes for a tag, or for the end of one. -/
theorem html_eq_iff {v w : View} (hv : v.WellNamed) (hw : w.WellNamed) :
    v.html = w.html ↔ v.normalForm = w.normalForm := by
  constructor
  · intro h
    have hwritten : v.tokens.flatMap HtmlToken.written = w.tokens.flatMap HtmlToken.written := by
      rw [← toList_html, ← toList_html, h]
    have htokens := HtmlToken.flatMap_written_inj (wellNamed_tokens v hv) (wellNamed_tokens w hw)
      hwritten
    have hrows := foldr_add_tokens v [] []
    rw [htokens, foldr_add_tokens w [] []] at hrows
    exact (List.cons_eq_cons.mp hrows).1.symm
  · intro h
    rw [← htmls_normalForm v, ← htmls_normalForm w, h]

/-- A value that spells another attribute, and texts that spell an element. -/
def hostile : View :=
  .fragment [.element "a" [("href", "x\" id=\"y")] [.text "<b>", .text "", .fragment [.text "</b>"]]]

/-- The same with one text. -/
def joined : View := .element "a" [("href", "x\" id=\"y")] [.text "<b></b>"]

/-- What the HTML would be taken for if nothing were escaped. -/
def deceived : View := .element "a" [("href", "x"), ("id", "y")] [.element "b" [] []]

theorem html_eq_iff_hostile :
    hostile.WellNamed ∧ joined.WellNamed ∧ deceived.WellNamed ∧ hostile.html = joined.html ∧
      hostile.html ≠ deceived.html := by
  have hhref : IsTagName "href" := by decide
  have ha : IsTagName "a" := by decide
  have hb : IsTagName "b" := by decide
  have hid : IsTagName "id" := by decide
  have hhostile : hostile.WellNamed := by simp [hostile, WellNamed, WellNamedAll, ha, hhref]
  have hjoined : joined.WellNamed := by simp [joined, WellNamed, WellNamedAll, ha, hhref]
  have hdeceived : deceived.WellNamed := by
    simp [deceived, WellNamed, WellNamedAll, ha, hb, hhref, hid]
  refine ⟨hhostile, hjoined, hdeceived, ?_, ?_⟩
  · exact (html_eq_iff hhostile hjoined).mpr rfl
  · intro h
    have hforms := (html_eq_iff hhostile hdeceived).mp h
    simp [hostile, deceived, normalForm, normalizeOnto, normalizeAllOnto, addText] at hforms

end View

end Phrasebook
