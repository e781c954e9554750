import Phrasebook.Composer
import Phrasebook.Proofs.Outcome

/-!
Runs of requests to a composer, and what its cache has to do with the answers.

A request moves nothing but the active locale and the cache (`serve_eq`). As long as
formatters are asked for with the patterns of the bundles, each entry of the cache is what
compiling the pattern would give (`Coherent`), so no answer depends on the requests before it
except through the active locale. Main statement: `translations_ignore_history`.
-/

namespace Phrasebook

/-- A use of a composer. -/
inductive Request where
  | setLocale (locale : String)
  | resolve (key : String)
  | has (key : String)
  | translate (key : String) (arguments : Arguments)
  | translateToParts (key : String) (arguments : Arguments)
  | formatter (locale key pattern : String)

/-- The pattern that bundles hold for a key of a locale. -/
def patternIn (bundles : Table Bundle) (locale key : String) : Option String :=
  (bundles.find? locale).bind (·.find? key)

namespace Request

/-- The active locale after a request. -/
def localeAfter (active : String) : Request → String
  | .setLocale locale => locale
  | _ => active

/-- The active locale after a run: the one set last, or else the one before. -/
def activeLocale (initial : String) (requests : List Request) : String :=
  requests.foldl localeAfter initial

/-- A formatter is asked for with the pattern that the bundles hold, if they hold one. -/
def Faithful (bundles : Table Bundle) : Request → Prop
  | .formatter locale key pattern =>
    ∀ held, patternIn bundles locale key = some held → pattern = held
  | _ => True

end Request

namespace Composer

/-- The composer after a request. -/
def serve (c : Composer) : Request → Composer
  | .setLocale locale => c.setLocale locale
  | .resolve _ => c
  | .has _ => c
  | .translate key arguments => (c.translate key arguments).2
  | .translateToParts key arguments => (c.translateToParts key arguments).2
  | .formatter locale key pattern => (c.formatter? locale key pattern).2

/-- The composer after a run of requests. -/
def serveAll (c : Composer) (requests : List Request) : Composer := requests.foldl serve c

/-- What compiling a pattern for a locale gives, with nothing cached. -/
def compiled? (c : Composer) (locale pattern : String) : Option Formatter :=
  (Formatter.compile locale pattern c.functions c.localizer c.isolates).toOption

/-! ## One request -/

theorem resolve?_eq (c : Composer) (key : String) :
    c.resolve? key = (patternIn c.bundles c.locale key).map (Resolution.mk c.locale) := by
  unfold resolve? patternIn
  cases c.bundles.find? c.locale with
  | none => rfl
  | some b => cases h : b.find? key <;> simp [h]

/-- A formatter comes from the cache, or is made and put there, or cannot be made. -/
theorem formatter?_cases (c : Composer) (locale key pattern : String) :
    (∃ f, c.cached? locale key = some f ∧ c.formatter? locale key pattern = (some f, c)) ∨
    (∃ f, c.cached? locale key = none ∧ c.compiled? locale pattern = some f ∧
      c.formatter? locale key pattern =
        (some f, { c with cache := ((locale, key), f) :: c.cache })) ∨
    (c.cached? locale key = none ∧ c.compiled? locale pattern = none ∧
      c.formatter? locale key pattern = (none, c)) := by
  unfold formatter? compiled?
  cases hcached : c.cached? locale key with
  | some f => exact .inl ⟨f, rfl, rfl⟩
  | none =>
    cases Formatter.compile locale pattern c.functions c.localizer c.isolates with
    | ok f => exact .inr (.inl ⟨f, rfl, rfl, rfl⟩)
    | error e => exact .inr (.inr ⟨rfl, rfl, rfl⟩)

/-- Asking once more for a formatter changes nothing and gives the same one. -/
theorem formatter?_again (c : Composer) (locale key pattern : String) :
    (c.formatter? locale key pattern).2.formatter? locale key pattern =
      c.formatter? locale key pattern := by
  obtain ⟨f, -, h⟩ | ⟨f, -, -, h⟩ | ⟨-, -, h⟩ := formatter?_cases c locale key pattern
  · rw [h, h]
  · rw [h]
    simp [formatter?, cached?]
  · rw [h, h]

/-- Translating asks for the formatter of the key's own pattern in the active locale. -/
theorem translate_snd (c : Composer) (key : String) (arguments : Arguments) :
    (c.translate key arguments).2 =
      match patternIn c.bundles c.locale key with
      | none => c
      | some pattern => (c.formatter? c.locale key pattern).2 := by
  unfold translate
  rw [resolve?_eq]
  cases patternIn c.bundles c.locale key with
  | none => rfl
  | some pattern =>
    obtain ⟨f, -, h⟩ | ⟨f, -, -, h⟩ | ⟨-, -, h⟩ := formatter?_cases c c.locale key pattern <;>
      simp [h]

theorem translateToParts_snd (c : Composer) (key : String) (arguments : Arguments) :
    (c.translateToParts key arguments).2 = (c.translate key arguments).2 := by
  rw [translate_snd]
  unfold translateToParts
  rw [resolve?_eq]
  cases patternIn c.bundles c.locale key with
  | none => rfl
  | some pattern =>
    obtain ⟨f, -, h⟩ | ⟨f, -, -, h⟩ | ⟨-, -, h⟩ := formatter?_cases c c.locale key pattern <;>
      simp [h]

/-- The composer with another active locale and another cache. -/
def withState (c : Composer) (locale : String)
    (cache : List ((String × String) × Formatter)) : Composer :=
  { c with locale, cache }

theorem formatter?_snd_eq (c : Composer) (locale key pattern : String) :
    ∃ cache, (c.formatter? locale key pattern).2 = c.withState c.locale cache := by
  obtain ⟨f, -, h⟩ | ⟨f, -, -, h⟩ | ⟨-, -, h⟩ := formatter?_cases c locale key pattern
  · exact ⟨c.cache, by rw [h]; rfl⟩
  · exact ⟨((locale, key), f) :: c.cache, by rw [h]; rfl⟩
  · exact ⟨c.cache, by rw [h]; rfl⟩

theorem translate_snd_eq (c : Composer) (key : String) (arguments : Arguments) :
    ∃ cache, (c.translate key arguments).2 = c.withState c.locale cache := by
  rw [translate_snd]
  split
  · exact ⟨c.cache, rfl⟩
  · exact formatter?_snd_eq ..

/-- A request moves nothing but the active locale and the cache. -/
theorem serve_eq (c : Composer) (request : Request) :
    ∃ cache, c.serve request = c.withState (request.localeAfter c.locale) cache := by
  cases request with
  | setLocale locale => exact ⟨c.cache, rfl⟩
  | resolve key => exact ⟨c.cache, rfl⟩
  | has key => exact ⟨c.cache, rfl⟩
  | translate key arguments => exact translate_snd_eq ..
  | translateToParts key arguments =>
    obtain ⟨cache, h⟩ := translate_snd_eq c key arguments
    exact ⟨cache, by rw [serve, translateToParts_snd, h]; rfl⟩
  | formatter locale key pattern => exact formatter?_snd_eq ..

theorem serveAll_eq (c : Composer) (requests : List Request) :
    ∃ cache, c.serveAll requests = c.withState (Request.activeLocale c.locale requests) cache := by
  induction requests generalizing c with
  | nil => exact ⟨c.cache, rfl⟩
  | cons request rest ih =>
    obtain ⟨first, hfirst⟩ := serve_eq c request
    obtain ⟨cache, hrest⟩ := ih (c.serve request)
    refine ⟨cache, ?_⟩
    rw [serveAll, List.foldl_cons, ← serveAll, hrest, hfirst]
    rfl

/-! ## Coherent caches -/

/-- What is cached for a key is what its pattern compiles to. -/
def Coherent (c : Composer) : Prop :=
  ∀ locale key f pattern, c.cached? locale key = some f →
    patternIn c.bundles locale key = some pattern → c.compiled? locale pattern = some f

theorem coherent_of_cache_eq_nil {c : Composer} (h : c.cache = []) : c.Coherent := by
  intro locale key f pattern hcached
  simp [cached?, h] at hcached

theorem coherent_formatter? {c : Composer} (h : c.Coherent) {locale key pattern : String}
    (hp : ∀ held, patternIn c.bundles locale key = some held → pattern = held) :
    (c.formatter? locale key pattern).2.Coherent := by
  obtain ⟨f, -, hf⟩ | ⟨f, -, hmade, hf⟩ | ⟨-, -, hf⟩ := formatter?_cases c locale key pattern
  · rwa [hf]
  · rw [hf]
    intro locale' key' g held hcached hheld
    have hlookup := hcached
    simp only [cached?, List.lookup_cons] at hlookup
    split at hlookup
    · next hsame =>
      obtain ⟨rfl, rfl⟩ := Prod.mk.inj (eq_of_beq hsame)
      cases hlookup
      rw [← hp held hheld]
      exact hmade
    · exact h locale' key' g held hlookup hheld
  · rwa [hf]

theorem coherent_translate {c : Composer} (h : c.Coherent) (key : String)
    (arguments : Arguments) : (c.translate key arguments).2.Coherent := by
  rw [translate_snd]
  split
  · exact h
  · next pattern hpattern =>
    refine coherent_formatter? h fun held hheld => ?_
    rw [hpattern] at hheld
    exact Option.some.inj hheld

theorem coherent_serve {c : Composer} (h : c.Coherent) {request : Request}
    (hr : request.Faithful c.bundles) : (c.serve request).Coherent := by
  cases request with
  | setLocale locale => exact h
  | resolve key => exact h
  | has key => exact h
  | translate key arguments => exact coherent_translate h key arguments
  | translateToParts key arguments =>
    rw [serve, translateToParts_snd]
    exact coherent_translate h key arguments
  | formatter locale key pattern => exact coherent_formatter? h hr

theorem coherent_serveAll {c : Composer} (h : c.Coherent) {requests : List Request}
    (hr : ∀ request ∈ requests, request.Faithful c.bundles) : (c.serveAll requests).Coherent := by
  induction requests generalizing c with
  | nil => exact h
  | cons request rest ih =>
    have hfirst := coherent_serve h (hr request List.mem_cons_self)
    refine ih hfirst fun other hmem => ?_
    obtain ⟨cache, hc⟩ := serve_eq c request
    rw [hc]
    exact hr other (List.mem_cons_of_mem _ hmem)

/-! ## Answers -/

/-- The formatter that serves a key in the active locale. -/
def formatterFor? (c : Composer) (key : String) : Option Formatter :=
  (patternIn c.bundles c.locale key).bind fun pattern => (c.formatter? c.locale key pattern).1

/-- What shows for a key whose message cannot be formatted. -/
def substitute (c : Composer) (key : String) : String :=
  (patternIn c.bundles c.locale key).getD key

theorem translate_fst (c : Composer) (key : String) (arguments : Arguments) :
    (c.translate key arguments).1 =
      ((c.formatterFor? key).bind fun f => (f.format arguments).toOption).getD
        (c.substitute key) := by
  unfold translate formatterFor? substitute
  rw [resolve?_eq]
  cases patternIn c.bundles c.locale key with
  | none => rfl
  | some pattern =>
    cases hf : c.formatter? c.locale key pattern with
    | mk found d => cases found <;> simp [hf]

theorem translateToParts_fst (c : Composer) (key : String) (arguments : Arguments) :
    (c.translateToParts key arguments).1 =
      ((c.formatterFor? key).bind fun f => (f.formatToParts arguments).toOption).getD [] := by
  unfold translateToParts formatterFor?
  rw [resolve?_eq]
  cases patternIn c.bundles c.locale key with
  | none => rfl
  | some pattern =>
    cases hf : c.formatter? c.locale key pattern with
    | mk found d => cases found <;> simp [hf]

/-- With a coherent cache, a key is served as it would be without one. -/
theorem formatterFor?_of_coherent {c : Composer} (h : c.Coherent) (key : String) :
    c.formatterFor? key =
      (patternIn c.bundles c.locale key).bind (c.compiled? c.locale) := by
  unfold formatterFor?
  cases hp : patternIn c.bundles c.locale key with
  | none => rfl
  | some pattern =>
    obtain ⟨f, hcached, hf⟩ | ⟨f, -, hmade, hf⟩ | ⟨-, hnone, hf⟩ :=
      formatter?_cases c c.locale key pattern
    · simp [hf, h c.locale key f pattern hcached hp]
    · simp [hf, hmade]
    · simp [hf, hnone]

/-! ## New composers -/

theorem ofSettings_eq_ok {settings : ComposerSettings} {c : Composer}
    (h : ofSettings settings = .ok c) :
    c.cache = [] ∧ c.locale = settings.locale ∧
      ∀ locale, ofSettings { settings with locale } = .ok { c with locale } := by
  obtain ⟨bundles, hshelve, h⟩ := Outcome.bind_eq_ok h
  cases h
  refine ⟨rfl, rfl, fun locale => ?_⟩
  simp [ofSettings, hshelve, bind, Except.bind, pure, Except.pure]

end Composer

/-- After any run in which formatters are asked for with the patterns of the bundles, keys
translate as they do with a new composer whose active locale is the one set last. -/
theorem translations_ignore_history {settings : ComposerSettings} {c : Composer}
    (h : Composer.ofSettings settings = .ok c) {history : List Request}
    (hr : ∀ request ∈ history, request.Faithful c.bundles) :
    ∃ fresh, Composer.ofSettings
        { settings with locale := Request.activeLocale settings.locale history } = .ok fresh ∧
      ∀ key arguments,
        ((c.serveAll history).translate key arguments).1 = (fresh.translate key arguments).1 ∧
        ((c.serveAll history).translateToParts key arguments).1 =
          (fresh.translateToParts key arguments).1 := by
  obtain ⟨hcache, hlocale, hnew⟩ := Composer.ofSettings_eq_ok h
  refine ⟨_, hnew _, fun key arguments => ?_⟩
  have hused := Composer.coherent_serveAll (Composer.coherent_of_cache_eq_nil hcache) hr
  have hfresh : Composer.Coherent
      { c with locale := Request.activeLocale settings.locale history } :=
    Composer.coherent_of_cache_eq_nil hcache
  obtain ⟨cache, hstate⟩ := Composer.serveAll_eq c history
  simp only [Composer.translate_fst, Composer.translateToParts_fst,
    Composer.formatterFor?_of_coherent hused, Composer.formatterFor?_of_coherent hfresh]
  rw [hstate, hlocale]
  exact ⟨rfl, rfl⟩

/-- One key in two locales. -/
def twoLocales : ComposerSettings where
  locale := "en"
  bundles := [⟨"fr", [("hi", "Salut {$x}")]⟩, ⟨"en", [("hi", "Hi {$x}")]⟩]

/-- There and back again, with a formatter asked for in between. -/
theorem translations_ignore_history_there_and_back :
    ∃ c fresh, Composer.ofSettings twoLocales = .ok c ∧
      (∀ request ∈ [.translate "hi" [], .setLocale "fr", .formatter "fr" "hi" "Salut {$x}",
        .translateToParts "hi" [], .setLocale "en"], Request.Faithful c.bundles request) ∧
      Composer.ofSettings { twoLocales with locale := "en" } = .ok fresh ∧
      ∀ key arguments,
        ((c.serveAll [.translate "hi" [], .setLocale "fr", .formatter "fr" "hi" "Salut {$x}",
          .translateToParts "hi" [], .setLocale "en"]).translate key arguments).1 =
            (fresh.translate key arguments).1 ∧
        ((c.serveAll [.translate "hi" [], .setLocale "fr", .formatter "fr" "hi" "Salut {$x}",
          .translateToParts "hi" [], .setLocale "en"]).translateToParts key arguments).1 =
            (fresh.translateToParts key arguments).1 := by
  obtain ⟨c, hc, hheld⟩ : ∃ c, Composer.ofSettings twoLocales = .ok c ∧
      patternIn c.bundles "fr" "hi" = some "Salut {$x}" := ⟨_, rfl, rfl⟩
  have hr : ∀ request ∈ [.translate "hi" [], .setLocale "fr", .formatter "fr" "hi" "Salut {$x}",
      .translateToParts "hi" [], .setLocale "en"], Request.Faithful c.bundles request := by
    intro request hmem
    simp only [List.mem_cons, List.not_mem_nil, or_false] at hmem
    rcases hmem with rfl | rfl | rfl | rfl | rfl
    case inr.inr.inl => exact fun held h => Option.some.inj (hheld.symm.trans h)
    all_goals trivial
  obtain ⟨fresh, hfresh, hsame⟩ := translations_ignore_history hc hr
  exact ⟨c, fresh, hc, hr, hfresh, hsame⟩

end Phrasebook
