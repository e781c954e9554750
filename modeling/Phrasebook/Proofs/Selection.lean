import Phrasebook.Formatter
import Phrasebook.Proofs.Acceptance

/-!
Which variant a formatter chooses.

`Formatter.Meets` says how well a key meets a selector and `Formatter.MeetsAll` how well the keys
of a variant meet the selectors of a matcher. Of the variants that meet the selectors, the
formatter takes the first whose ranks come first in the order of words (`Formatter.Chosen`). A
message that was read has a variant that meets all selectors, so there is always one to take.
-/

namespace Phrasebook

/-- The name of a plural category does not read as a number. -/
theorem PluralCategory.read?_name (category : PluralCategory) :
    Number.read? category.name = none := by
  cases category <;> decide +kernel

namespace Formatter

/-! ## Ranks -/

/-- How well a key meets a selector: a key may be the value of the selector, or name the plural
category of a number that is not compared exactly, or catch all. -/
inductive Meets (f : Formatter) : VariantKey → Selector → Nat → Prop
  | text (s : String) : f.Meets (.literal s) (.text s) 0
  | number {key : String} {x y : Number} {exactOnly : Bool} :
      Number.read? key = some y → y.equals x = true →
        f.Meets (.literal key) (.number x exactOnly) 0
  | category {key : String} {x : Number} :
      (f.localizer.pluralCategory f.locale x).name = key →
        f.Meets (.literal key) (.number x false) 1
  | catchAll (selector : Selector) : f.Meets .catchAll selector 2

/-- How well keys meet as many selectors. -/
inductive MeetsAll (f : Formatter) : List VariantKey → List Selector → List Nat → Prop
  | nil : f.MeetsAll [] [] []
  | cons {key : VariantKey} {selector : Selector} {rank : Nat} {keys : List VariantKey}
      {selectors : List Selector} {ranks : List Nat} :
      f.Meets key selector rank → f.MeetsAll keys selectors ranks →
        f.MeetsAll (key :: keys) (selector :: selectors) (rank :: ranks)

theorem rankKey_eq_some_iff {f : Formatter} {key : VariantKey} {selector : Selector} {rank : Nat} :
    f.rankKey key selector = some rank ↔ f.Meets key selector rank := by
  constructor
  · intro h
    cases key with
    | catchAll =>
      cases h
      exact .catchAll selector
    | literal key =>
      cases selector with
      | none => cases h
      | text s =>
        rw [rankKey] at h
        split at h
        · next heq =>
          cases h
          rw [heq]
          exact .text key
        · cases h
      | number x exactOnly =>
        rw [rankKey] at h
        split at h
        · next hequal =>
          cases h
          cases hread : Number.read? key with
          | none =>
            rw [hread] at hequal
            cases hequal
          | some y =>
            rw [hread] at hequal
            exact .number hread hequal
        · split at h
          · next hcategory =>
            cases h
            simp only [Bool.and_eq_true, Bool.not_eq_true', beq_iff_eq] at hcategory
            rw [hcategory.1]
            exact .category hcategory.2
          · cases h
  · intro h
    cases h with
    | text s => rw [rankKey, if_pos rfl]
    | number hy hyx => rw [rankKey, hy, if_pos (by simpa using hyx)]
    | category hname => simp [rankKey, ← hname, PluralCategory.read?_name]
    | catchAll => rfl

theorem rankKeys_eq_some_iff {f : Formatter} {keys : List VariantKey} {selectors : List Selector}
    {ranks : List Nat} (hlength : keys.length = selectors.length) :
    f.rankKeys keys selectors = some ranks ↔ f.MeetsAll keys selectors ranks := by
  induction keys generalizing selectors ranks with
  | nil =>
    cases selectors with
    | cons selector selectors => cases hlength
    | nil =>
      constructor
      · intro h
        cases h
        exact .nil
      · intro h
        cases h
        rfl
  | cons key keys ih =>
    cases selectors with
    | nil => cases hlength
    | cons selector selectors =>
      have hrest : ∀ others, f.rankKeys keys selectors = some others ↔
          f.MeetsAll keys selectors others := fun _ => ih (Nat.succ.inj hlength)
      constructor
      · intro h
        obtain ⟨rank, hrank, h⟩ := Option.bind_eq_some_iff.mp h
        obtain ⟨others, hothers, h⟩ := Option.bind_eq_some_iff.mp h
        cases h
        exact .cons (rankKey_eq_some_iff.mp hrank) ((hrest others).mp hothers)
      · intro h
        cases h with
        | cons hrank hothers =>
          rw [rankKeys, rankKey_eq_some_iff.mpr hrank, (hrest _).mpr hothers]
          rfl

theorem MeetsAll.length_eq {f : Formatter} {keys : List VariantKey} {selectors : List Selector}
    {ranks : List Nat} (h : f.MeetsAll keys selectors ranks) : keys.length = selectors.length := by
  induction h with
  | nil => rfl
  | cons _ _ ih => rw [List.length_cons, List.length_cons, ih]

theorem MeetsAll.unique {f : Formatter} {keys : List VariantKey} {selectors : List Selector}
    {ranks others : List Nat} (h : f.MeetsAll keys selectors ranks)
    (h' : f.MeetsAll keys selectors others) : ranks = others := by
  have hranks := (rankKeys_eq_some_iff h.length_eq).mpr h
  have hothers := (rankKeys_eq_some_iff h.length_eq).mpr h'
  exact Option.some.inj (hranks.symm.trans hothers)

/-- A variant that catches all meets any selectors. -/
theorem meetsAll_of_catchAll (f : Formatter) {keys : List VariantKey} {selectors : List Selector}
    (hkeys : ∀ k ∈ keys, k = .catchAll) (hlength : keys.length = selectors.length) :
    ∃ ranks, f.MeetsAll keys selectors ranks := by
  induction keys generalizing selectors with
  | nil =>
    cases selectors with
    | nil => exact ⟨[], .nil⟩
    | cons selector selectors => cases hlength
  | cons key keys ih =>
    cases selectors with
    | nil => cases hlength
    | cons selector selectors =>
      obtain ⟨hkey, hkeys⟩ := List.forall_mem_cons.mp hkeys
      obtain ⟨ranks, hranks⟩ := ih hkeys (Nat.succ.inj hlength)
      rw [hkey]
      exact ⟨2 :: ranks, .cons (.catchAll selector) hranks⟩

/-! ## The best variant -/

section

variable {f : Formatter} {selectors : List Selector} {seen variants : List Variant}
  {best : Option (List Nat × Variant)} {v : Variant} {ranks : List Nat}

/-- Of the variants before, it and after, the variant is the first whose ranks are least. -/
structure Chosen (f : Formatter) (selectors : List Selector) (before : List Variant) (v : Variant)
    (after : List Variant) (ranks : List Nat) : Prop where
  meets : f.MeetsAll v.keys selectors ranks
  before : ∀ w ∈ before, ∀ others, f.MeetsAll w.keys selectors others → ranks < others
  after : ∀ w ∈ after, ∀ others, f.MeetsAll w.keys selectors others → ¬ others < ranks

/-- The best of the variants seen: none if none of them meets the selectors. -/
def BestOf (f : Formatter) (selectors : List Selector) (seen : List Variant) :
    Option (List Nat × Variant) → Prop
  | none => ∀ w ∈ seen, ∀ others, ¬ f.MeetsAll w.keys selectors others
  | some (ranks, v) =>
    ∃ before after, seen = before ++ v :: after ∧ f.Chosen selectors before v after ranks

theorem BestOf.mem (h : f.BestOf selectors seen (some (ranks, v))) : v ∈ seen := by
  obtain ⟨before, after, rfl, -⟩ := h
  exact List.mem_append_right before List.mem_cons_self

theorem BestOf.meets (h : f.BestOf selectors seen (some (ranks, v))) :
    f.MeetsAll v.keys selectors ranks := by
  obtain ⟨before, after, -, hv⟩ := h
  exact hv.meets

/-- No variant is less than the best one. -/
theorem BestOf.not_lt (h : f.BestOf selectors seen (some (ranks, v))) {w : Variant}
    (hw : w ∈ seen) {others : List Nat} (hothers : f.MeetsAll w.keys selectors others) :
    ¬ others < ranks := by
  obtain ⟨before, after, rfl, hv⟩ := h
  rcases List.mem_append.mp hw with hw | hw
  · exact List.lt_asymm (hv.before w hw others hothers)
  · rcases List.mem_cons.mp hw with rfl | hw
    · rw [hv.meets.unique hothers]
      exact List.lt_irrefl others
    · exact hv.after w hw others hothers

/-- A variant after the best one that is not less changes nothing. -/
theorem BestOf.skip (h : f.BestOf selectors seen best)
    (hv : ∀ others, f.MeetsAll v.keys selectors others →
      ∃ ranks w, best = some (ranks, w) ∧ ¬ others < ranks) :
    f.BestOf selectors (seen ++ [v]) best := by
  cases best with
  | none =>
    refine List.forall_mem_append.mpr ⟨h, List.forall_mem_singleton.mpr fun others hothers => ?_⟩
    obtain ⟨_, _, hbest, -⟩ := hv others hothers
    cases hbest
  | some best =>
    obtain ⟨before, after, rfl, hmeets, hbefore, hafter⟩ := h
    refine ⟨before, after ++ [v], by simp, hmeets, hbefore, ?_⟩
    refine List.forall_mem_append.mpr ⟨hafter, List.forall_mem_singleton.mpr ?_⟩
    intro others hothers
    obtain ⟨_, _, hbest, hnot⟩ := hv others hothers
    cases hbest
    exact hnot

/-- A variant that is less than the best one is the best from then on. -/
theorem BestOf.take (h : f.BestOf selectors seen best) (hv : f.MeetsAll v.keys selectors ranks)
    (hless : ∀ others w, best = some (others, w) → ranks < others) :
    f.BestOf selectors (seen ++ [v]) (some (ranks, v)) := by
  refine ⟨seen, [], rfl, hv, fun w hw others hothers => ?_, fun w hw => by cases hw⟩
  cases best with
  | none => exact absurd hothers (h w hw others)
  | some best =>
    obtain ⟨bestRanks, b⟩ := best
    have hnot : ¬ others < bestRanks := h.not_lt hw hothers
    have hlt : ranks < bestRanks := hless bestRanks b rfl
    rcases Std.lt_trichotomy ranks others with hless | rfl | hgreater
    · exact hless
    · exact absurd hlt hnot
    · exact absurd (List.lt_trans hgreater hlt) hnot

theorem bestOf_bestVariant (hkeys : ∀ v ∈ variants, v.keys.length = selectors.length)
    (h : f.BestOf selectors seen best) :
    f.BestOf selectors (seen ++ variants) (f.bestVariant selectors variants best) := by
  induction variants generalizing seen best with
  | nil =>
    rw [List.append_nil]
    exact h
  | cons v rest ih =>
    obtain ⟨hv, hrest⟩ := List.forall_mem_cons.mp hkeys
    rw [List.append_cons]
    cases hranks : f.rankKeys v.keys selectors with
    | none =>
      simp only [bestVariant, hranks]
      refine ih hrest (h.skip fun others hothers => ?_)
      rw [(rankKeys_eq_some_iff hv).mpr hothers] at hranks
      cases hranks
    | some ranks =>
      have hmeets := (rankKeys_eq_some_iff hv).mp hranks
      cases best with
      | none =>
        simp only [bestVariant, hranks]
        exact ih hrest (h.take hmeets fun _ _ hbest => by cases hbest)
      | some best =>
        obtain ⟨bestRanks, w⟩ := best
        simp only [bestVariant, hranks]
        split
        · next hless =>
          refine ih hrest (h.take hmeets ?_)
          rintro _ _ ⟨⟩
          exact hless
        · next hnot =>
          refine ih hrest (h.skip fun others hothers => ?_)
          rw [← hmeets.unique hothers]
          exact ⟨bestRanks, w, rfl, hnot⟩

end

/-! ## Matchers -/

/-- Selectors by their values, where each variable has one. -/
theorem selectPattern_eq {f : Formatter} {scope : Scope} {m : Matcher} {selectors : List Selector}
    (h : m.selectors.mapM (f.selector scope) = .ok selectors) :
    f.selectPattern scope m =
      match f.bestVariant selectors m.variants none with
      | some (_, v) => .ok v.pattern
      | none => .error (.failed "match" "no variant matched") := by
  rw [selectPattern, h]
  rfl

/-- Some variant is best, when each has as many keys as there are selectors and one catches
all. -/
theorem exists_bestVariant {f : Formatter} {variants : List Variant} {selectors : List Selector}
    (hkeys : ∀ v ∈ variants, v.keys.length = selectors.length)
    (hcatchAll : ∃ v ∈ variants, ∀ k ∈ v.keys, k = .catchAll) :
    ∃ ranks v, f.bestVariant selectors variants none = some (ranks, v) ∧
      f.BestOf selectors variants (some (ranks, v)) := by
  have hnone : f.BestOf selectors [] none := fun w hw => (List.not_mem_nil hw).elim
  have hbest := bestOf_bestVariant hkeys hnone
  rw [List.nil_append] at hbest
  cases h : f.bestVariant selectors variants none with
  | some best =>
    rw [h] at hbest
    exact ⟨best.1, best.2, rfl, hbest⟩
  | none =>
    rw [h] at hbest
    obtain ⟨v, hv, hall⟩ := hcatchAll
    obtain ⟨ranks, hranks⟩ := f.meetsAll_of_catchAll hall (hkeys v hv)
    exact absurd hranks (hbest v hv ranks)

/-- No two of the variants meet the selectors equally well. -/
def Distinguishes (f : Formatter) (selectors : List Selector) (variants : List Variant) : Prop :=
  variants.Pairwise fun v w => ∀ ranks,
    f.MeetsAll v.keys selectors ranks → ¬ f.MeetsAll w.keys selectors ranks

theorem distinguishes_of_nodup {f : Formatter} {selectors : List Selector}
    {variants : List Variant}
    (h : (variants.filterMap fun v => f.rankKeys v.keys selectors).Nodup) :
    f.Distinguishes selectors variants := by
  refine (List.pairwise_filterMap.mp h).imp fun hne ranks hv hw => ?_
  exact hne ranks ((rankKeys_eq_some_iff hv.length_eq).mpr hv) ranks
    ((rankKeys_eq_some_iff hw.length_eq).mpr hw) rfl

/-- The best of variants that differ in their ranks is the best in any order of them. -/
theorem BestOf.eq_of_perm {f : Formatter} {selectors : List Selector}
    {variants others : List Variant} {v w : Variant} {ranks ranks' : List Nat}
    (h : f.BestOf selectors variants (some (ranks, v)))
    (h' : f.BestOf selectors others (some (ranks', w))) (hperm : others.Perm variants)
    (hdistinct : f.Distinguishes selectors variants) : w = v := by
  have hw : w ∈ variants := hperm.mem_iff.mp h'.mem
  have hv : v ∈ others := hperm.mem_iff.mpr h.mem
  have hranks : ranks' = ranks := by
    rcases Std.lt_trichotomy ranks' ranks with hless | heq | hgreater
    · exact absurd hless (h.not_lt hw h'.meets)
    · exact heq
    · exact absurd hgreater (h'.not_lt hv h.meets)
  have hmeets := h'.meets
  rw [hranks] at hmeets
  obtain ⟨before, after, rfl, hchosen⟩ := h
  rcases List.mem_append.mp hw with hw | hw
  · exact absurd (hchosen.before w hw ranks hmeets) (List.lt_irrefl ranks)
  · rcases List.mem_cons.mp hw with hw | hw
    · exact hw
    · have hlater := List.pairwise_cons.mp (List.pairwise_append.mp hdistinct).2.1
      exact absurd hmeets (hlater.1 w hw ranks hchosen.meets)

/-- A matcher that was read has a key for each selector in each variant, and a variant that
catches all. -/
theorem variants_of_compile {locale source : String} {functions : FunctionTable}
    {localizer : Localizer} {isolates : Bool} {f : Formatter}
    (h : compile locale source functions localizer isolates = .ok f) {m : Matcher}
    (hm : f.message.body = .choice m) :
    (∀ v ∈ m.variants, v.keys.length = m.selectors.length) ∧
      ∃ v ∈ m.variants, ∀ k ∈ v.keys, k = .catchAll := by
  obtain ⟨message, hparse, h⟩ := Outcome.bind_eq_ok h
  cases h
  obtain ⟨-, hvalidate⟩ := Message.of_parse hparse
  exact Matcher.of_fault?_eq_none ((Message.of_validate hvalidate).2 m hm)

/-- Where the selectors have values, a compiled message chooses the first of the variants that
meet them best. If no two variants meet them equally well, the order of the variants does not
matter. -/
theorem selectPattern_chosen {locale source : String} {functions : FunctionTable}
    {localizer : Localizer} {isolates : Bool} {f : Formatter}
    (hf : compile locale source functions localizer isolates = .ok f) {m : Matcher}
    (hm : f.message.body = .choice m) {scope : Scope} {selectors : List Selector}
    (hselectors : m.selectors.mapM (f.selector scope) = .ok selectors) :
    (∃ before v after ranks, m.variants = before ++ v :: after ∧
      f.Chosen selectors before v after ranks ∧ f.selectPattern scope m = .ok v.pattern) ∧
    (f.Distinguishes selectors m.variants → ∀ variants, variants.Perm m.variants →
      f.selectPattern scope { m with variants } = f.selectPattern scope m) := by
  obtain ⟨hkeys, hcatchAll⟩ := variants_of_compile hf hm
  rw [← Outcome.length_of_mapM_eq_ok hselectors] at hkeys
  obtain ⟨ranks, v, hv, hbest⟩ := exists_bestVariant hkeys hcatchAll
  have hpattern : f.selectPattern scope m = .ok v.pattern := by rw [selectPattern_eq hselectors, hv]
  refine ⟨?_, fun hdistinct variants hperm => ?_⟩
  · obtain ⟨before, after, hsplit, hchosen⟩ := hbest
    exact ⟨before, v, after, ranks, hsplit, hchosen, hpattern⟩
  · have hkeys' : ∀ w ∈ variants, w.keys.length = selectors.length :=
      fun w hw => hkeys w (hperm.mem_iff.mp hw)
    obtain ⟨u, hu, hall⟩ := hcatchAll
    obtain ⟨ranks', w, hw, hbest'⟩ :=
      exists_bestVariant hkeys' ⟨u, hperm.mem_iff.mpr hu, hall⟩
    have hpattern' : f.selectPattern scope { m with variants } = .ok w.pattern := by
      rw [selectPattern_eq (m := { m with variants }) hselectors, hw]
    rw [hpattern, hpattern', hbest.eq_of_perm hbest' hperm hdistinct]

/-- A key that names a category, and one that spells its number in another way. -/
def pluralSource : String :=
  ".match $n $s one * \x7b\x7b\x7d\x7d 1.0 b \x7b\x7ba\x7d\x7d * * \x7b\x7bc\x7d\x7d"

def pluralMatcher : Matcher where
  selectors := ["n", "s"]
  variants :=
    [⟨[.literal "one", .catchAll], [], ⟨13, 23, 1, 14⟩⟩,
      ⟨[.literal "1.0", .literal "b"], [.text "a"], ⟨24, 35, 1, 25⟩⟩,
      ⟨[.catchAll, .catchAll], [.text "c"], ⟨36, 45, 1, 37⟩⟩]
  span := ⟨6, 45, 1, 7⟩

def pluralFormatter : Formatter where
  locale := "en"
  source := pluralSource
  message := ⟨[], .choice pluralMatcher⟩
  functions := .builtins
  localizer := { Localizer.basic with pluralCategory := fun _ _ => .one }
  isolates := true

theorem compile_pluralSource :
    compile "en" pluralSource .builtins pluralFormatter.localizer true = .ok pluralFormatter :=
  compile_of_parse (Outcome.eq_ok_of_toOption (by decide +kernel))

theorem selectPattern_chosen_plural :
    let scope : Scope := ⟨[("n", .number (.finite false Number.one)), ("s", .string "b")], []⟩
    let selectors : List Selector := [.number (.finite false Number.one) false, .text "b"]
    compile "en" pluralSource .builtins pluralFormatter.localizer true = .ok pluralFormatter ∧
      pluralFormatter.message.body = .choice pluralMatcher ∧
      pluralMatcher.selectors.mapM (pluralFormatter.selector scope) = .ok selectors ∧
      pluralFormatter.Distinguishes selectors pluralMatcher.variants ∧
      (∃ before v after ranks, pluralMatcher.variants = before ++ v :: after ∧
        pluralFormatter.Chosen selectors before v after ranks ∧
        pluralFormatter.selectPattern scope pluralMatcher = .ok v.pattern) ∧
      pluralFormatter.selectPattern scope
          { pluralMatcher with variants := pluralMatcher.variants.reverse } =
        pluralFormatter.selectPattern scope pluralMatcher := by
  intro scope selectors
  have hselectors : pluralMatcher.selectors.mapM (pluralFormatter.selector scope) =
      .ok selectors := rfl
  have hdistinct : pluralFormatter.Distinguishes selectors pluralMatcher.variants :=
    distinguishes_of_nodup (by decide +kernel)
  obtain ⟨hchosen, hperm⟩ := selectPattern_chosen compile_pluralSource rfl hselectors
  exact ⟨compile_pluralSource, rfl, hselectors, hdistinct, hchosen,
    hperm hdistinct _ (List.reverse_perm _)⟩

end Formatter

end Phrasebook
