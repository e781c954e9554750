import Mathlib.Data.List.Chain
import Mathlib.Data.List.TakeWhile
import Phrasebook.Proofs.Spelling

/-!
The sub-parts of a number or of a date take its text apart without loss.

A number's text is a sign if there is one, what stands before the first point, and what the point
parts from it. A date's text falls into runs, which are as long as they can be: `IsRuns` says that
each is of digits alone or has none, and that these take turns. Main statement:
`SubPart.split_lossless_and_maximal`, for any text that a localizer may give.
-/

namespace Phrasebook.SubPart

/-! ## Numbers -/

/-- What stands before the first point is the integer, and a point comes with a fraction. -/
theorem kinds_ofUnsigned (cs : List Char) :
    (ofUnsigned cs).map (·.kind) =
      "integer" :: if '.' ∈ cs then ["decimal", "fraction"] else [] := by
  unfold ofUnsigned
  split
  · next h =>
    have hnone : '.' ∉ cs := by
      intro hmem
      have hpoint := List.dropWhile_eq_nil_iff.mp h '.' hmem
      simp at hpoint
    simp [ofChars, hnone]
  · next point fraction h =>
    have hpoint : point = '.' := by
      have hhead := List.head?_dropWhile_not (· != '.') cs
      rw [h, List.head?_cons] at hhead
      simpa using hhead
    have hmem : '.' ∈ cs := by
      refine (List.dropWhile_sublist (· != '.')).subset ?_
      rw [h, hpoint]
      exact List.mem_cons_self
    simp [ofChars, hmem]

/-- A sign in front is a part of its own. -/
theorem kinds_ofNumberText (s : String) :
    (ofNumberText s).map (·.kind) =
      (if s.toList.head? = some '-' then ["minusSign"] else []) ++
        "integer" :: if '.' ∈ s.toList then ["decimal", "fraction"] else [] := by
  unfold ofNumberText
  split
  · next rest h =>
    rw [h, List.map_cons, kinds_ofUnsigned]
    simp [ofChars]
  · next hsign =>
    have hhead : s.toList.head? ≠ some '-' := by
      intro h
      obtain ⟨rest, hrest⟩ := List.head?_eq_some_iff.mp h
      exact hsign rest hrest
    rw [kinds_ofUnsigned, if_neg hhead, List.nil_append]

/-! ## Dates -/

/-- The characters fall into these runs. None is empty, each is of digits alone or has none, and
those of digits take turns with the others, so none could be longer. -/
structure IsRuns (runs : List (List Char)) (cs : List Char) : Prop where
  flatten : runs.flatten = cs
  nonempty : ∀ run ∈ runs, run ≠ []
  uniform : ∀ run ∈ runs, (∀ c ∈ run, c.isDigit = true) ∨ ∀ c ∈ run, c.isDigit = false
  alternate : runs.IsChain fun run next => ∀ c ∈ run, ∀ d ∈ next, c.isDigit ≠ d.isDigit

/-- A character of the other class begins a run. -/
theorem IsRuns.cons {runs : List (List Char)} {cs : List Char} {c : Char} (h : IsRuns runs cs)
    (hc : ∀ run ∈ runs.head?, ∀ d ∈ run, c.isDigit ≠ d.isDigit) :
    IsRuns ([c] :: runs) (c :: cs) := by
  refine ⟨by simp [h.flatten], ?_, ?_, ?_⟩
  · exact List.forall_mem_cons.mpr ⟨List.cons_ne_nil _ _, h.nonempty⟩
  · refine List.forall_mem_cons.mpr ⟨?_, h.uniform⟩
    cases hdigit : c.isDigit with
    | true => exact .inl (List.forall_mem_singleton.mpr hdigit)
    | false => exact .inr (List.forall_mem_singleton.mpr hdigit)
  · exact h.alternate.cons fun run hrun => List.forall_mem_singleton.mpr (hc run hrun)

/-- A character of the same class makes the first run longer. -/
theorem IsRuns.extend {run : List Char} {runs : List (List Char)} {cs : List Char} {c d : Char}
    (h : IsRuns ((d :: run) :: runs) cs) (hc : c.isDigit = d.isDigit) :
    IsRuns ((c :: d :: run) :: runs) (c :: cs) := by
  obtain ⟨hflatten, hnonempty, huniform, halternate⟩ := h
  obtain ⟨-, hnonempty⟩ := List.forall_mem_cons.mp hnonempty
  obtain ⟨hfirst, huniform⟩ := List.forall_mem_cons.mp huniform
  obtain ⟨hnext, halternate⟩ := List.isChain_cons.mp halternate
  refine ⟨by simp [← hflatten], ?_, ?_, ?_⟩
  · exact List.forall_mem_cons.mpr ⟨List.cons_ne_nil _ _, hnonempty⟩
  · refine List.forall_mem_cons.mpr ⟨?_, huniform⟩
    refine hfirst.imp (fun hall => ?_) fun hall => ?_
    · exact List.forall_mem_cons.mpr ⟨hc ▸ hall d List.mem_cons_self, hall⟩
    · exact List.forall_mem_cons.mpr ⟨hc ▸ hall d List.mem_cons_self, hall⟩
  · refine halternate.cons fun next hmem => List.forall_mem_cons.mpr ⟨?_, hnext next hmem⟩
    rw [hc]
    exact hnext next hmem d List.mem_cons_self

theorem isRuns_runs (cs : List Char) : IsRuns (runs cs) cs := by
  induction cs with
  | nil => exact ⟨rfl, by simp [runs], by simp [runs], .nil⟩
  | cons c rest ih =>
    rw [runs]
    split
    · next d run others h =>
      rw [h] at ih
      split
      · next hc => exact ih.extend hc
      · next hc =>
        refine ih.cons fun first hfirst => ?_
        cases hfirst
        have hsame : ∀ e ∈ d :: run, e.isDigit = d.isDigit := by
          intro e he
          rcases ih.uniform _ List.mem_cons_self with hall | hall
          · rw [hall e he, hall d List.mem_cons_self]
          · rw [hall e he, hall d List.mem_cons_self]
        intro e he
        rw [hsame e he]
        exact hc
    · next hnone =>
      refine ih.cons fun first hfirst => ?_
      obtain ⟨others, hothers⟩ := List.head?_eq_some_iff.mp hfirst
      cases first with
      | nil => simp
      | cons d run => exact absurd hothers (hnone d run others)

theorem values_nameRuns (fields : List String) (runs : List (List Char)) :
    (nameRuns fields runs).map (·.value) =
      runs.map fun run => some (.string (String.ofList run)) := by
  induction runs generalizing fields with
  | nil => rfl
  | cons run rest ih =>
    rw [nameRuns]
    split
    · rw [List.map_cons, ih, List.map_cons, ofChars]
    · rw [List.map_cons, ih, List.map_cons, ofChars]

/-- What a run is named, given how many runs of digits stand before it. -/
def runName (fields : List String) (digitRuns : Nat) (run : List Char) : String :=
  if run.all Char.isDigit then fields.getD digitRuns "integer" else "literal"

theorem head?_any_isDigit {run : List Char} (hne : run ≠ [])
    (h : (∀ c ∈ run, c.isDigit = true) ∨ ∀ c ∈ run, c.isDigit = false) :
    run.head?.any Char.isDigit = run.all Char.isDigit := by
  cases run with
  | nil => exact absurd rfl hne
  | cons c run =>
    rw [List.head?_cons, Option.any_some]
    rcases h with h | h
    · rw [h c List.mem_cons_self, List.all_eq_true.mpr h]
    · rw [h c List.mem_cons_self, List.all_cons, h c List.mem_cons_self, Bool.false_and]

/-- Each run of digits takes the next field. -/
theorem kind_nameRuns {fields : List String} {runs : List (List Char)}
    (hne : ∀ run ∈ runs, run ≠ [])
    (h : ∀ run ∈ runs, (∀ c ∈ run, c.isDigit = true) ∨ ∀ c ∈ run, c.isDigit = false)
    {before after : List (List Char)} {run : List Char} (hruns : runs = before ++ run :: after) :
    ((nameRuns fields runs)[before.length]?).map (·.kind) =
      some (runName fields (before.countP (·.all Char.isDigit)) run) := by
  induction before generalizing fields runs with
  | nil =>
    subst hruns
    obtain ⟨hne, -⟩ := List.forall_mem_cons.mp hne
    obtain ⟨h, -⟩ := List.forall_mem_cons.mp h
    rw [List.nil_append, nameRuns, head?_any_isDigit hne h, runName]
    split
    · simp [ofChars, List.headD_eq_head?_getD, List.head?_eq_getElem?]
    · simp [ofChars]
  | cons first before ih =>
    subst hruns
    obtain ⟨hfirst, hne⟩ := List.forall_mem_cons.mp hne
    obtain ⟨huniform, h⟩ := List.forall_mem_cons.mp h
    rw [List.cons_append, nameRuns, head?_any_isDigit hfirst huniform, List.countP_cons]
    split
    · next hdigits =>
      have hrest := @ih fields.tail _ hne h rfl
      simpa [runName] using hrest
    · next hdigits =>
      have hrest := @ih fields _ hne h rfl
      simpa [runName, hdigits] using hrest

/-! ## Main statement -/

/-- Nothing of a text is lost in its sub-parts. Those of a number are the integer, before it the
sign if one is in front, and after it the decimal point with the fraction if there is a point. Those
of a date are runs of the text as long as they can be; those of digits alone are named after the
fields in turn, by `integer` when no field is left, and the others are literals. -/
theorem split_lossless_and_maximal (s : String) (fields : List String) :
    (ExpressionPart.joined? (ofNumberText s) = some s ∧
      (ofNumberText s).map (·.kind) =
        (if s.toList.head? = some '-' then ["minusSign"] else []) ++
          "integer" :: if '.' ∈ s.toList then ["decimal", "fraction"] else []) ∧
    ExpressionPart.joined? (ofDateText s fields) = some s ∧
      ∃ runs, IsRuns runs s.toList ∧
        (ofDateText s fields).map (·.value) =
          runs.map (fun run => some (.string (String.ofList run))) ∧
        ∀ before run after, runs = before ++ run :: after →
          ((ofDateText s fields)[before.length]?).map (·.kind) =
            some (runName fields (before.countP (·.all Char.isDigit)) run) := by
  have hruns := isRuns_runs s.toList
  refine ⟨⟨ExpressionPart.joined?_ofNumberText s, kinds_ofNumberText s⟩,
    ExpressionPart.joined?_ofDateText s fields, runs s.toList, hruns, ?_, ?_⟩
  · exact values_nameRuns fields (runs s.toList)
  · intro before run after hsplit
    exact kind_nameRuns hruns.nonempty hruns.uniform hsplit

/-- A number's text that begins and ends with what parts it, and a date's text that begins with a
literal and has more digits than fields. -/
example : (ofNumberText "-.5.").map (·.kind) = ["minusSign", "integer", "decimal", "fraction"] ∧
    (ofDateText "den 1.2.3" ["day", "month"]).map (·.kind) =
      ["literal", "day", "literal", "month", "literal", "integer"] := by decide

end Phrasebook.SubPart
