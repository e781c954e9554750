import Mathlib.Data.Finset.Card
import Phrasebook.Proofs.Requests

/-!
What the cache of a composer holds after a run of requests.

When no request brings a pattern of its own, the cache has one entry for each pair of a locale and
a key that was translated while the locale was active and whose pattern compiles, and the entry is
what the pattern compiles to (`Composer.Accounted`). Each request keeps the account, so a run does.
Main statement: `cache_accounts_for_translations`.
-/

namespace Phrasebook

namespace Request

/-- A request that leaves patterns to the bundles. -/
def FromBundles : Request → Prop
  | .formatter _ _ _ => False
  | _ => True

/-- The key that a request translates. -/
def key? : Request → Option String
  | .translate key _ => some key
  | .translateToParts key _ => some key
  | _ => none

/-- The keys that a run translates, each with the locale that is active then. -/
def translatedPairs (active : String) : List Request → List (String × String)
  | [] => []
  | request :: rest =>
    (request.key?.map (active, ·)).toList ++ translatedPairs (request.localeAfter active) rest

end Request

namespace Composer

/-- What the bundles' own pattern for a key compiles to. -/
def held? (c : Composer) (locale key : String) : Option Formatter :=
  (patternIn c.bundles locale key).bind (c.compiled? locale)

/-- The pairs that a run translates and that have a message. -/
def heldPairs (c : Composer) (requests : List Request) : Finset (String × String) :=
  ((Request.translatedPairs c.locale requests).filter fun p => (c.held? p.1 p.2).isSome).toFinset

/-- The cache has one entry for each of some pairs that has a message, which is that message. -/
structure Accounted (c : Composer) (pairs : List (String × String)) : Prop where
  distinct : (c.cache.map Prod.fst).Nodup
  keys : ∀ p, p ∈ c.cache.map Prod.fst ↔ p ∈ pairs ∧ (c.held? p.1 p.2).isSome
  messages : ∀ locale key f, c.cached? locale key = some f → c.held? locale key = some f

/-! ## One request -/

theorem cached?_eq_none_iff {c : Composer} {locale key : String} :
    c.cached? locale key = none ↔ (locale, key) ∉ c.cache.map Prod.fst := by
  rw [cached?, List.lookup_eq_none_iff, List.mem_map]
  constructor
  · rintro h ⟨entry, hentry, heq⟩
    simpa [heq] using h entry hentry
  · intro h entry hentry
    rw [bne_iff_ne]
    exact fun heq => h ⟨entry, hentry, heq.symm⟩

/-- Translating a key leaves the composer as it is, or puts the key's message into the cache where
there was none. -/
theorem translate_snd_cases (c : Composer) (key : String) (arguments : Arguments) :
    (c.translate key arguments).2 = c ∧
        (c.cached? c.locale key ≠ none ∨ c.held? c.locale key = none) ∨
      ∃ f, c.cached? c.locale key = none ∧ c.held? c.locale key = some f ∧
        (c.translate key arguments).2 = { c with cache := ((c.locale, key), f) :: c.cache } := by
  rw [translate_snd]
  unfold held?
  cases patternIn c.bundles c.locale key with
  | none => exact .inl ⟨rfl, .inr rfl⟩
  | some pattern =>
    obtain ⟨f, hcached, h⟩ | ⟨f, hnew, hmade, h⟩ | ⟨-, hnone, h⟩ :=
      formatter?_cases c c.locale key pattern
    all_goals dsimp only
    · exact .inl ⟨by rw [h], .inl (by simp [hcached])⟩
    · exact .inr ⟨f, hnew, hmade, by rw [h]⟩
    · exact .inl ⟨by rw [h], .inr hnone⟩

/-- A key without a message, and one whose message is there already, leave the composer as it
is. -/
theorem translate_snd_eq_self (c : Composer) {key : String} (arguments : Arguments)
    (h : c.held? c.locale key = none ∨ c.cached? c.locale key ≠ none) :
    (c.translate key arguments).2 = c := by
  obtain ⟨hsame, -⟩ | ⟨f, hnew, hf, -⟩ := c.translate_snd_cases key arguments
  · exact hsame
  · rcases h with hnone | hcached
    · rw [hnone] at hf
      cases hf
    · exact absurd hnew hcached

/-- Only a translation enters a message. -/
theorem cache_serve_eq (c : Composer) {request : Request} (hr : request.FromBundles)
    (hkey : request.key? = none) : (c.serve request).cache = c.cache := by
  cases request with
  | setLocale locale => rfl
  | resolve key => rfl
  | has key => rfl
  | translate key arguments => cases hkey
  | translateToParts key arguments => cases hkey
  | formatter locale key pattern => exact hr.elim

namespace Accounted

variable {c : Composer} {pairs : List (String × String)}

theorem mem_of_cached? (h : c.Accounted pairs) {locale key : String}
    (hcached : c.cached? locale key ≠ none) : (locale, key) ∈ pairs := by
  rw [ne_eq, cached?_eq_none_iff, not_not] at hcached
  exact ((h.keys _).mp hcached).1

theorem cached?_of_mem (h : c.Accounted pairs) {p : String × String} (hp : p ∈ pairs)
    (hheld : (c.held? p.1 p.2).isSome) :
    ∃ f, c.cached? p.1 p.2 = some f ∧ c.held? p.1 p.2 = some f := by
  have hkey : p ∈ c.cache.map Prod.fst := (h.keys p).mpr ⟨hp, hheld⟩
  have hcached : c.cached? p.1 p.2 ≠ none := fun hnone => cached?_eq_none_iff.mp hnone hkey
  obtain ⟨f, hf⟩ := Option.ne_none_iff_exists'.mp hcached
  exact ⟨f, hf, h.messages _ _ f hf⟩

/-- Pairs without a message, and pairs that are there already, may be added. -/
theorem more (h : c.Accounted pairs) {q : String × String}
    (hq : q ∈ pairs ∨ c.held? q.1 q.2 = none) : c.Accounted (pairs ++ [q]) := by
  refine ⟨h.distinct, fun p => ?_, h.messages⟩
  rw [h.keys, List.mem_append, List.mem_singleton]
  constructor
  · exact fun hp => ⟨.inl hp.1, hp.2⟩
  · rintro ⟨hp | rfl, hheld⟩
    · exact ⟨hp, hheld⟩
    · rcases hq with hp | hnone
      · exact ⟨hp, hheld⟩
      · simp [hnone] at hheld

/-- A message that was not there yet is entered. -/
theorem entered (h : c.Accounted pairs) {locale key : String} {f : Formatter}
    (hnew : c.cached? locale key = none) (hf : c.held? locale key = some f) :
    Accounted { c with cache := ((locale, key), f) :: c.cache } (pairs ++ [(locale, key)]) := by
  refine ⟨?_, fun p => ?_, fun locale' key' g hg => ?_⟩
  · exact List.nodup_cons.mpr ⟨cached?_eq_none_iff.mp hnew, h.distinct⟩
  · change p ∈ (locale, key) :: c.cache.map Prod.fst ↔ _ ∧ (c.held? p.1 p.2).isSome
    rw [List.mem_cons, h.keys, List.mem_append, List.mem_singleton]
    constructor
    · rintro (rfl | ⟨hp, hheld⟩)
      · exact ⟨.inr rfl, by simp [hf]⟩
      · exact ⟨.inl hp, hheld⟩
    · rintro ⟨hp | rfl, hheld⟩
      · exact .inr ⟨hp, hheld⟩
      · exact .inl rfl
  · change c.held? locale' key' = some g
    simp only [cached?, List.lookup_cons] at hg
    split at hg
    · next hsame =>
      obtain ⟨rfl, rfl⟩ := Prod.mk.inj (eq_of_beq hsame)
      cases hg
      exact hf
    · exact h.messages locale' key' g hg

theorem translate (h : c.Accounted pairs) (key : String) (arguments : Arguments) :
    (c.translate key arguments).2.Accounted (pairs ++ [(c.locale, key)]) := by
  obtain ⟨hsame, hcached | hnone⟩ | ⟨f, hnew, hf, hmore⟩ := translate_snd_cases c key arguments
  · rw [hsame]
    exact h.more (.inl (h.mem_of_cached? hcached))
  · rw [hsame]
    exact h.more (.inr hnone)
  · rw [hmore]
    exact h.entered hnew hf

/-- A request keeps the account. -/
theorem serve (h : c.Accounted pairs) {request : Request} (hr : request.FromBundles) :
    (c.serve request).Accounted (pairs ++ (request.key?.map (c.locale, ·)).toList) := by
  cases request with
  | setLocale locale =>
    change Accounted { c with locale } (pairs ++ [])
    rw [List.append_nil]
    exact ⟨h.distinct, h.keys, h.messages⟩
  | resolve key =>
    change c.Accounted (pairs ++ [])
    rwa [List.append_nil]
  | has key =>
    change c.Accounted (pairs ++ [])
    rwa [List.append_nil]
  | translate key arguments => exact h.translate key arguments
  | translateToParts key arguments =>
    rw [Composer.serve, translateToParts_snd]
    exact h.translate key arguments
  | formatter locale key pattern => exact hr.elim

/-! ## Runs -/

theorem serveAll (h : c.Accounted pairs) {requests : List Request}
    (hr : ∀ request ∈ requests, request.FromBundles) :
    (c.serveAll requests).Accounted (pairs ++ Request.translatedPairs c.locale requests) := by
  induction requests generalizing c pairs with
  | nil =>
    change c.Accounted (pairs ++ [])
    rwa [List.append_nil]
  | cons request rest ih =>
    obtain ⟨hrequest, hrest⟩ := List.forall_mem_cons.mp hr
    have hrun := ih (h.serve hrequest) hrest
    obtain ⟨cache, hserve⟩ := serve_eq c request
    have hlocale : (c.serve request).locale = request.localeAfter c.locale := by rw [hserve]; rfl
    rwa [hlocale, List.append_assoc] at hrun

end Accounted

theorem accounted_of_cache_eq_nil {c : Composer} (h : c.cache = []) : c.Accounted [] := by
  refine ⟨by simp [h], by simp [h], fun locale key f hcached => ?_⟩
  simp [cached?, h] at hcached

theorem cacheSize_le_serve (c : Composer) (request : Request) :
    c.cacheSize ≤ (c.serve request).cacheSize := by
  have hformatter (locale key pattern : String) :
      c.cacheSize ≤ (c.formatter? locale key pattern).2.cacheSize := by
    obtain ⟨f, -, h⟩ | ⟨f, -, -, h⟩ | ⟨-, -, h⟩ := formatter?_cases c locale key pattern
    · rw [h]
    · rw [h]
      exact Nat.le_succ _
    · rw [h]
  have htranslate (key : String) (arguments : Arguments) :
      c.cacheSize ≤ (c.translate key arguments).2.cacheSize := by
    rw [translate_snd]
    split
    · exact Nat.le_refl _
    · exact hformatter ..
  cases request with
  | setLocale locale => exact Nat.le_refl _
  | resolve key => exact Nat.le_refl _
  | has key => exact Nat.le_refl _
  | translate key arguments => exact htranslate key arguments
  | translateToParts key arguments =>
    rw [serve, translateToParts_snd]
    exact htranslate key arguments
  | formatter locale key pattern => exact hformatter ..

theorem cacheSize_le_serveAll (c : Composer) (requests : List Request) :
    c.cacheSize ≤ (c.serveAll requests).cacheSize := by
  induction requests generalizing c with
  | nil => exact Nat.le_refl _
  | cons request rest ih => exact Nat.le_trans (c.cacheSize_le_serve request) (ih _)

/-- An account of all the pairs that a run has translated counts those with a message. -/
theorem Accounted.cacheSize_eq {c d : Composer} {requests : List Request}
    (h : d.Accounted (Request.translatedPairs c.locale requests))
    (hheld : ∀ locale key, d.held? locale key = c.held? locale key) :
    d.cacheSize = (c.heldPairs requests).card := by
  have hkeys : c.heldPairs requests = (d.cache.map Prod.fst).toFinset := by
    ext p
    simp [heldPairs, h.keys, ← hheld]
  rw [hkeys, List.toFinset_card_of_nodup h.distinct, List.length_map, cacheSize]

end Composer

/-- After any run of requests that bring no pattern of their own, the cache has as many entries as
pairs of a locale and a key were translated that have a message; it never shrinks, and it stays as
it is unless a key is translated that has a message and was not translated before in its locale.
For each of those pairs the message of the bundles is there, whatever pattern it is asked for
with. -/
theorem cache_accounts_for_translations {settings : ComposerSettings} {c : Composer}
    (h : Composer.ofSettings settings = .ok c) {history : List Request}
    (hr : ∀ request ∈ history, request.FromBundles) :
    let d := c.serveAll history
    d.cacheSize = (c.heldPairs history).card ∧
    (∀ more, d.cacheSize ≤ (d.serveAll more).cacheSize) ∧
    (∀ request : Request, request.FromBundles → request.key? = none →
      (d.serve request).cache = d.cache) ∧
    (∀ key arguments, d.held? d.locale key = none ∨ (d.locale, key) ∈ c.heldPairs history →
      (d.translate key arguments).2 = d ∧ (d.translateToParts key arguments).2 = d) ∧
    ∀ p ∈ c.heldPairs history, ∃ pattern f, patternIn c.bundles p.1 p.2 = some pattern ∧
      Formatter.compile p.1 pattern c.functions c.localizer c.isolates = .ok f ∧
      ∀ q, d.formatter? p.1 p.2 q = (some f, d) := by
  obtain ⟨hcache, -, -⟩ := Composer.ofSettings_eq_ok h
  intro d
  have haccount : d.Accounted (Request.translatedPairs c.locale history) :=
    (Composer.accounted_of_cache_eq_nil hcache).serveAll hr
  obtain ⟨cache, hd⟩ := Composer.serveAll_eq c history
  have hheld (locale key : String) : d.held? locale key = c.held? locale key := by
    change (c.serveAll history).held? locale key = _
    rw [hd]
    rfl
  have hcached (p : String × String) (hp : p ∈ c.heldPairs history) :
      ∃ f, d.cached? p.1 p.2 = some f ∧ c.held? p.1 p.2 = some f := by
    obtain ⟨hmem, hsome⟩ := List.mem_filter.mp (List.mem_toFinset.mp hp)
    rw [← hheld] at hsome ⊢
    exact haccount.cached?_of_mem hmem hsome
  refine ⟨haccount.cacheSize_eq hheld, d.cacheSize_le_serveAll, fun _ => d.cache_serve_eq, ?_, ?_⟩
  · intro key arguments hkey
    have hsettled : d.held? d.locale key = none ∨ d.cached? d.locale key ≠ none := by
      refine hkey.imp_right fun hmem => ?_
      obtain ⟨f, hf, -⟩ := hcached _ hmem
      simp [hf]
    rw [d.translateToParts_snd, and_self]
    exact d.translate_snd_eq_self arguments hsettled
  · intro p hp
    obtain ⟨f, hf, hmessage⟩ := hcached p hp
    obtain ⟨pattern, hpattern, hcompiled⟩ := Option.bind_eq_some_iff.mp hmessage
    refine ⟨pattern, f, hpattern, Outcome.eq_ok_of_toOption hcompiled, fun q => ?_⟩
    rw [Composer.formatter?, hf]

/-- Two locales; in one of them a pattern that does not compile and one that needs an argument. -/
def strictLocales : ComposerSettings where
  locale := "en"
  bundles := [⟨"fr", [("hi", "Salut")]⟩, ⟨"en", [("bad", "\x7b"), ("hi", "\x7b$x :number\x7d")]⟩]

/-- One message that fails to format, twice, one key in another locale, one that is missing and one
that does not compile. -/
def mixedHistory : List Request :=
  [.translate "hi" [], .has "hi", .translateToParts "hi" [], .translate "bad" [], .resolve "bad",
    .setLocale "fr", .translate "hi" [], .translate "gone" [], .setLocale "en", .translate "hi" []]

theorem cache_accounts_for_translations_mixed :
    ∃ c, Composer.ofSettings strictLocales = .ok c ∧
      (∀ request ∈ mixedHistory, request.FromBundles) ∧
      (c.heldPairs mixedHistory).card = 2 ∧ (c.serveAll mixedHistory).cacheSize = 2 := by
  obtain ⟨c, hc, hcard⟩ : ∃ c, Composer.ofSettings strictLocales = .ok c ∧
      (c.heldPairs mixedHistory).card = 2 := ⟨_, rfl, by decide +kernel⟩
  have hr : ∀ request ∈ mixedHistory, request.FromBundles := by
    intro request hmem
    simp only [mixedHistory, List.mem_cons, List.not_mem_nil, or_false] at hmem
    rcases hmem with rfl | rfl | rfl | rfl | rfl | rfl | rfl | rfl | rfl | rfl <;> trivial
  obtain ⟨hsize, -⟩ := cache_accounts_for_translations hc hr
  exact ⟨c, hc, hr, hcard, hsize.trans hcard⟩

end Phrasebook
