import Mathlib.Data.List.Forall2
import Phrasebook.Formatter
import Phrasebook.Proofs.Grammar
import Phrasebook.Proofs.Outcome

/-!
Messages that correspond item by item.

Formatters that call the same functions (`Formatter.CallsLike`) evaluate and choose alike, whatever
their messages. Where the declarations of two messages bind the same values, and items that
correspond resolve alike, the two fail or are shown alike: `Outcome.Agree` carries this from the
items over the choice of a variant to the whole (`Formatter.agree_resolve`). So the places that a
message was read from play no part in what it shows (`Formatter.format_eq_of_unplaced_eq`).
-/

namespace Phrasebook

/-! ## Computations -/

namespace Outcome

variable {ε α β γ δ : Type} {R : α → β → Prop} {S : γ → δ → Prop} {x : Except ε α} {y : Except ε β}

/-- Both computations fail with one error, or both succeed with results in a relation. -/
inductive Agree (R : α → β → Prop) : Except ε α → Except ε β → Prop
  | ok {a : α} {b : β} : R a b → Agree R (.ok a) (.ok b)
  | error (e : ε) : Agree R (.error e) (.error e)

theorem agree_refl {R : α → α → Prop} (hR : ∀ a, R a a) (x : Except ε α) : Agree R x x := by
  cases x with
  | ok a => exact .ok (hR a)
  | error e => exact .error e

theorem Agree.eq {x y : Except ε α} (h : Agree Eq x y) : x = y := by
  cases h with
  | ok hab => rw [hab]
  | error e => rfl

theorem Agree.imp {R' : α → β → Prop} (h : Agree R x y) (hR : ∀ a b, R a b → R' a b) :
    Agree R' x y := by
  cases h with
  | ok hab => exact .ok (hR _ _ hab)
  | error e => exact .error e

theorem Agree.bind {g : α → Except ε γ} {k : β → Except ε δ} (h : Agree R x y)
    (hgk : ∀ a b, R a b → Agree S (g a) (k b)) : Agree S (x >>= g) (y >>= k) := by
  cases h with
  | ok hab => exact hgk _ _ hab
  | error e => exact .error e

/-- Where related results are taken to the same, so are the computations. -/
theorem Agree.bind_eq {g : α → Except ε γ} {k : β → Except ε γ} (h : Agree R x y)
    (hgk : ∀ a b, R a b → g a = k b) : (x >>= g) = y >>= k := by
  cases h with
  | ok hab => exact hgk _ _ hab
  | error e => rfl

/-- Computations with the same image agree on it. -/
theorem agree_of_map_eq {u : α → γ} {v : β → γ} (h : x.map u = y.map v) :
    Agree (fun a b => u a = v b) x y := by
  cases x with
  | error e =>
    cases y with
    | error e' =>
      cases h
      exact .error e
    | ok b => cases h
  | ok a =>
    cases y with
    | error e => cases h
    | ok b => exact .ok (Except.ok.inj h)

/-- Lists of computations that agree one by one agree. -/
theorem agree_mapM {g : γ → Except ε α} {k : δ → Except ε β} {cs : List γ} {ds : List δ}
    (h : List.Forall₂ (fun c d => Agree R (g c) (k d)) cs ds) :
    Agree (List.Forall₂ R) (cs.mapM g) (ds.mapM k) := by
  induction h with
  | nil => exact .ok .nil
  | cons hfirst _ ih =>
    rw [List.mapM_cons, List.mapM_cons]
    exact hfirst.bind fun a b hab => ih.bind fun as bs hrest => .ok (.cons hab hrest)

end Outcome

/-- Lists with related things have the same image, if related things have. -/
theorem map_eq_of_forall₂ {α β γ : Type} {u : α → γ} {v : β → γ} {as : List α} {bs : List β}
    (h : List.Forall₂ (fun a b => u a = v b) as bs) : as.map u = bs.map v := by
  rw [← List.forall₂_eq_eq_eq, List.forall₂_map_left_iff, List.forall₂_map_right_iff]
  exact h

theorem forall₂_of_map_eq {α β γ : Type} {u : α → γ} {v : β → γ} {as : List α} {bs : List β}
    (h : as.map u = bs.map v) : List.Forall₂ (fun a b => u a = v b) as bs := by
  rw [← List.forall₂_eq_eq_eq, List.forall₂_map_left_iff, List.forall₂_map_right_iff] at h
  exact h

theorem forall_mem_of_forall₂ {α β : Type} {R : α → β → Prop} {A : α → Prop} {B : β → Prop}
    {as : List α} {bs : List β} (h : List.Forall₂ R as bs) (hR : ∀ a b, R a b → A a → B b)
    (has : ∀ a ∈ as, A a) : ∀ b ∈ bs, B b := by
  induction h with
  | nil => exact fun b hb => (List.not_mem_nil hb).elim
  | cons hab _ ih =>
    obtain ⟨ha, has⟩ := List.forall_mem_cons.mp has
    exact List.forall_mem_cons.mpr ⟨hR _ _ hab ha, ih has⟩

/-! ## Bodies -/

section

variable (P : PatternItem → PatternItem → Prop)

/-- Variants with the same keys, and patterns that correspond item by item. -/
structure Variant.Corresponds (v w : Variant) : Prop where
  keys : v.keys = w.keys
  pattern : List.Forall₂ P v.pattern w.pattern

/-- Bodies that choose among patterns in the same way, and whose patterns correspond. -/
inductive Body.Corresponds : Body → Body → Prop
  | pattern {p q : Pattern} : List.Forall₂ P p q → Corresponds (.pattern p) (.pattern q)
  | choice {m n : Matcher} :
      m.selectors = n.selectors → List.Forall₂ (Variant.Corresponds P) m.variants n.variants →
        Corresponds (.choice m) (.choice n)

/-- The same ranks, for variants that correspond. -/
def RankedAlike (a b : List Nat × Variant) : Prop := a.1 = b.1 ∧ a.2.Corresponds P b.2

end

/-! ## Well-formed bodies -/

section

variable {P : PatternItem → PatternItem → Prop}
  (hitems : ∀ i j, P i j → i.WellFormed → j.WellFormed)
  (htexts : ∀ i j, P i j → j.IsText → i.IsText)
include htexts

theorem TextsParted.of_forall₂ {p q : Pattern} (h : List.Forall₂ P p q) (hp : TextsParted p) :
    TextsParted q := by
  induction h with
  | nil => trivial
  | cons hab hrest ih =>
    cases hrest with
    | nil => trivial
    | cons hcd _ =>
      exact ⟨fun hboth => hp.1 ⟨htexts _ _ hab hboth.1, htexts _ _ hcd hboth.2⟩, ih hp.2⟩

include hitems

theorem PatternWellFormed.of_forall₂ {p q : Pattern} (h : List.Forall₂ P p q)
    (hp : PatternWellFormed p) : PatternWellFormed q :=
  ⟨forall_mem_of_forall₂ h hitems hp.items, hp.parted.of_forall₂ htexts h⟩

theorem Body.WellFormed.of_corresponds {b c : Body} (h : b.Corresponds P c)
    (hb : b.WellFormed) : c.WellFormed := by
  cases h with
  | pattern hpq => exact PatternWellFormed.of_forall₂ hitems htexts hpq hb
  | @choice m n hselectors hvariants =>
    obtain ⟨hnonempty, hnames, hlengths, hpatterns, v, hv, hall⟩ := hb
    rw [hselectors] at hnonempty hnames hlengths
    refine ⟨hnonempty, hnames, ?_, ?_, ?_⟩
    · exact forall_mem_of_forall₂ hvariants (fun _ _ hvw hlength => hvw.keys ▸ hlength) hlengths
    · exact forall_mem_of_forall₂ hvariants
        (fun _ _ hvw => PatternWellFormed.of_forall₂ hitems htexts hvw.pattern) hpatterns
    · have hkeys : m.variants.map (·.keys) = n.variants.map (·.keys) :=
        map_eq_of_forall₂ (hvariants.imp fun _ _ hvw => hvw.keys)
      have hmem : v.keys ∈ n.variants.map (·.keys) := hkeys ▸ List.mem_map_of_mem hv
      obtain ⟨w, hw, hvw⟩ := List.mem_map.mp hmem
      exact ⟨w, hw, hvw ▸ hall⟩

end

namespace Formatter

/-! ## Formatters -/

/-- The formatters call the same functions for the same locale, and compare numbers alike. -/
structure CallsLike (f g : Formatter) : Prop where
  locale : f.locale = g.locale
  functions : f.functions = g.functions
  localizer : f.localizer = g.localizer

/-- The formatters differ at most in their messages. -/
structure ShowsLike (f g : Formatter) : Prop extends CallsLike f g where
  isolates : f.isolates = g.isolates

variable {f g : Formatter} {P : PatternItem → PatternItem → Prop}

theorem showsLike_of_compile {locale a b : String} {functions : FunctionTable}
    {localizer : Localizer} {isolates : Bool}
    (hf : compile locale a functions localizer isolates = .ok f)
    (hg : compile locale b functions localizer isolates = .ok g) : f.ShowsLike g := by
  obtain ⟨_, -, hf⟩ := Outcome.bind_eq_ok hf
  obtain ⟨_, -, hg⟩ := Outcome.bind_eq_ok hg
  cases hf
  cases hg
  exact ⟨⟨rfl, rfl, rfl⟩, rfl⟩

theorem functions_of_compile {locale source : String} {functions : FunctionTable}
    {localizer : Localizer} {isolates : Bool}
    (hf : compile locale source functions localizer isolates = .ok f) :
    f.functions = functions := by
  obtain ⟨_, -, hf⟩ := Outcome.bind_eq_ok hf
  cases hf
  rfl

theorem localizer_of_compile {locale source : String} {functions : FunctionTable}
    {localizer : Localizer} {isolates : Bool}
    (hf : compile locale source functions localizer isolates = .ok f) :
    f.localizer = localizer := by
  obtain ⟨_, -, hf⟩ := Outcome.bind_eq_ok hf
  cases hf
  rfl

theorem showsLike_withMessage (f : Formatter) (m : Message) :
    f.ShowsLike { f with message := m } :=
  ⟨⟨rfl, rfl, rfl⟩, rfl⟩

theorem CallsLike.symm (h : f.CallsLike g) : g.CallsLike f :=
  ⟨h.locale.symm, h.functions.symm, h.localizer.symm⟩

theorem CallsLike.evaluate (h : f.CallsLike g) (s : Scope) (e : Expression) :
    f.evaluate s e = g.evaluate s e := by
  obtain ⟨locale, source, m, functions, localizer, isolates⟩ := f
  obtain ⟨locale', source', m', functions', localizer', isolates'⟩ := g
  obtain ⟨rfl, rfl, rfl⟩ := h
  rfl

theorem CallsLike.selector (h : f.CallsLike g) (s : Scope) (name : String) :
    f.selector s name = g.selector s name := by
  obtain ⟨locale, source, m, functions, localizer, isolates⟩ := f
  obtain ⟨locale', source', m', functions', localizer', isolates'⟩ := g
  obtain ⟨rfl, rfl, rfl⟩ := h
  rfl

theorem CallsLike.rankKey (h : f.CallsLike g) (key : VariantKey) (selector : Selector) :
    f.rankKey key selector = g.rankKey key selector := by
  cases key with
  | catchAll => rfl
  | literal key =>
    cases selector with
    | none => rfl
    | text s => rfl
    | number x exactOnly => rw [Formatter.rankKey, Formatter.rankKey, h.locale, h.localizer]

theorem CallsLike.declare (h : f.CallsLike g) (s : Scope) (ds : List Declaration) :
    f.declare s ds = g.declare s ds := by
  induction ds generalizing s with
  | nil => rfl
  | cons d ds ih =>
    rw [Formatter.declare, Formatter.declare, h.evaluate]
    exact congrArg _ (funext fun value => ih _)

theorem CallsLike.rankKeys (h : f.CallsLike g) (keys : List VariantKey)
    (selectors : List Selector) : f.rankKeys keys selectors = g.rankKeys keys selectors := by
  induction keys generalizing selectors with
  | nil => simp [Formatter.rankKeys]
  | cons key keys ih =>
    cases selectors with
    | nil => simp [Formatter.rankKeys]
    | cons selector selectors => rw [Formatter.rankKeys, Formatter.rankKeys, h.rankKey, ih]

theorem CallsLike.resolveItem (h : f.CallsLike g) (s : Scope) (item : PatternItem) :
    f.resolveItem s item = g.resolveItem s item := by
  cases item with
  | text text => rfl
  | expression e => rw [Formatter.resolveItem, Formatter.resolveItem, h.evaluate]
  | markup m => rfl

/-- Of variants that correspond, those that are best correspond. -/
theorem rankedAlike_bestVariant (h : f.CallsLike g) {selectors : List Selector}
    {vs ws : List Variant} (hvariants : List.Forall₂ (Variant.Corresponds P) vs ws)
    {best best' : Option (List Nat × Variant)} (hbest : Option.Rel (RankedAlike P) best best') :
    Option.Rel (RankedAlike P) (f.bestVariant selectors vs best)
      (g.bestVariant selectors ws best') := by
  induction hvariants generalizing best best' with
  | nil => simpa [bestVariant] using hbest
  | @cons v w vs ws hv _ ih =>
    have hkeys : g.rankKeys w.keys selectors = f.rankKeys v.keys selectors := by
      rw [h.rankKeys, hv.keys]
    cases hranks : f.rankKeys v.keys selectors with
    | none =>
      simp only [bestVariant, hkeys, hranks]
      exact ih hbest
    | some ranks =>
      cases hbest with
      | none =>
        simp only [bestVariant, hkeys, hranks]
        exact ih (.some ⟨rfl, hv⟩)
      | @some a b hab =>
        obtain ⟨bestRanks, u⟩ := a
        obtain ⟨bestRanks', u'⟩ := b
        obtain ⟨rfl, hu⟩ := hab
        simp only [bestVariant, hkeys, hranks]
        refine ih (.some ?_)
        split
        · exact ⟨rfl, hv⟩
        · exact ⟨rfl, hu⟩

theorem agree_bodyPattern (h : f.CallsLike g) {b c : Body} (hbody : b.Corresponds P c)
    (s : Scope) :
    Outcome.Agree (List.Forall₂ P) (f.bodyPattern s b) (g.bodyPattern s c) := by
  cases hbody with
  | pattern hpq => exact .ok hpq
  | @choice n n' hselectors hvariants =>
    have hsame : n'.selectors.mapM (g.selector s) = n.selectors.mapM (f.selector s) := by
      rw [hselectors, funext (h.selector s)]
    rw [bodyPattern, bodyPattern, selectPattern, selectPattern, hsame]
    cases n.selectors.mapM (f.selector s) with
    | error e => exact .error e
    | ok selectors =>
      have hbest : Option.Rel (RankedAlike P) (f.bestVariant selectors n.variants none)
          (g.bestVariant selectors n'.variants none) :=
        rankedAlike_bestVariant h hvariants .none
      dsimp only [bind, Except.bind]
      generalize f.bestVariant selectors n.variants none = best at hbest ⊢
      generalize g.bestVariant selectors n'.variants none = best' at hbest ⊢
      cases hbest with
      | none => exact .error _
      | some hab => exact .ok hab.2.pattern

theorem CallsLike.bodyPattern (h : f.CallsLike g) (s : Scope) (b : Body) :
    f.bodyPattern s b = g.bodyPattern s b := by
  have hsame : b.Corresponds Eq b := by
    cases b with
    | pattern p => exact .pattern (List.forall₂_refl p)
    | choice n =>
      exact .choice rfl (List.forall₂_same.mpr fun v _ => ⟨rfl, List.forall₂_refl v.pattern⟩)
  have hagree := agree_bodyPattern h hsame s
  rw [List.forall₂_eq_eq_eq] at hagree
  exact hagree.eq

/-- Messages whose declarations bind the same values, and whose items correspond, resolve alike if
items that correspond do. -/
theorem agree_resolve (h : f.CallsLike g) {I : ResolvedItem → ResolvedItem → Prop}
    {arguments : Arguments}
    (hdeclare : f.declare { arguments } g.message.declarations =
      f.declare { arguments } f.message.declarations)
    (hbody : f.message.body.Corresponds P g.message.body)
    (hitem : ∀ s, f.declare { arguments } f.message.declarations = .ok s → ∀ i j, P i j →
      Outcome.Agree I (f.resolveItem s i) (f.resolveItem s j)) :
    Outcome.Agree (List.Forall₂ I) (f.resolve arguments) (g.resolve arguments) := by
  rw [resolve, resolve, ← h.declare, hdeclare]
  cases hs : f.declare { arguments } f.message.declarations with
  | error e => exact .error e
  | ok s =>
    refine (agree_bodyPattern h hbody s).bind fun p q hpq => ?_
    rw [← funext (h.resolveItem s)]
    exact Outcome.agree_mapM (hpq.imp (hitem s hs))

theorem CallsLike.resolve (h : f.CallsLike g) (hm : f.message = g.message)
    (arguments : Arguments) : f.resolve arguments = g.resolve arguments := by
  rw [Formatter.resolve, Formatter.resolve, ← hm, h.declare]
  refine congrArg _ (funext fun s => ?_)
  rw [h.bodyPattern, funext (h.resolveItem s)]

/-! ## What is shown -/

theorem ShowsLike.itemText (h : f.ShowsLike g) (item : ResolvedItem) :
    f.itemText item = g.itemText item := by
  cases item <;> simp [Formatter.itemText, h.isolates]

theorem ShowsLike.itemParts (h : f.ShowsLike g) (item : ResolvedItem) :
    f.itemParts item = g.itemParts item := by
  cases item <;> simp [Formatter.itemParts, expressionPart, h.isolates, h.locale]

variable {arguments : Arguments}

theorem format_eq_ok_iff {text : String} :
    f.format arguments = .ok text ↔
      ∃ items, f.resolve arguments = .ok items ∧ String.join (items.map f.itemText) = text := by
  rw [format]
  cases f.resolve arguments <;> simp [bind, Except.bind, pure, Except.pure]

theorem formatToParts_eq_ok_iff {parts : List Part} :
    f.formatToParts arguments = .ok parts ↔
      ∃ items, f.resolve arguments = .ok items ∧ items.flatMap f.itemParts = parts := by
  rw [formatToParts]
  cases f.resolve arguments <;> simp [bind, Except.bind, pure, Except.pure]

/-- Messages that resolve to the same texts have the same text. -/
theorem format_eq_of_agree (h : f.ShowsLike g)
    (hagree : Outcome.Agree (List.Forall₂ fun a b => f.itemText a = f.itemText b)
      (f.resolve arguments) (g.resolve arguments)) :
    f.format arguments = g.format arguments := by
  refine hagree.bind_eq fun as bs hab => ?_
  rw [map_eq_of_forall₂ hab, funext h.itemText]

theorem formatToParts_eq_of_agree (h : f.ShowsLike g)
    (hagree : Outcome.Agree (List.Forall₂ fun a b => f.itemParts a = f.itemParts b)
      (f.resolve arguments) (g.resolve arguments)) :
    f.formatToParts arguments = g.formatToParts arguments := by
  refine hagree.bind_eq fun as bs hab => ?_
  rw [List.flatMap_def, List.flatMap_def, map_eq_of_forall₂ hab, funext h.itemParts]

theorem format_eq_of_resolve_eq (h : f.ShowsLike g)
    (hresolve : f.resolve arguments = g.resolve arguments) :
    f.format arguments = g.format arguments ∧
      f.formatToParts arguments = g.formatToParts arguments := by
  constructor
  · rw [format, format, hresolve, funext h.itemText]
  · rw [formatToParts, formatToParts, hresolve, funext h.itemParts]

/-! ## Places -/

theorem declare_unplaced (f : Formatter) (s : Scope) (ds : List Declaration) :
    f.declare s (ds.map Declaration.unplaced) = f.declare s ds := by
  induction ds generalizing s with
  | nil => rfl
  | cons d ds ih =>
    rw [List.map_cons, declare, declare]
    exact congrArg _ (funext fun value => ih _)

end Formatter

/-- The item without the place that its markup was read from. -/
def ResolvedItem.unplaced : ResolvedItem → ResolvedItem
  | .markup m options => .markup m.unplaced options
  | item => item

theorem Body.corresponds_of_unplaced_eq {b c : Body} (h : b.unplaced = c.unplaced) :
    b.Corresponds (fun i j => i.unplaced = j.unplaced) c := by
  cases b with
  | pattern p =>
    cases c with
    | choice n => cases h
    | pattern q => exact .pattern (forall₂_of_map_eq (Body.pattern.inj h))
  | choice m =>
    cases c with
    | pattern q => cases h
    | choice n =>
      obtain ⟨hselectors, hvariants, -⟩ := Matcher.mk.inj (Body.choice.inj h)
      refine .choice hselectors ((forall₂_of_map_eq hvariants).imp fun v w hvw => ?_)
      obtain ⟨hkeys, hpattern, -⟩ := Variant.mk.inj hvw
      exact ⟨hkeys, forall₂_of_map_eq hpattern⟩

namespace Formatter

theorem resolveItem_unplaced (f : Formatter) (s : Scope) (item : PatternItem) :
    f.resolveItem s item.unplaced = (f.resolveItem s item).map ResolvedItem.unplaced := by
  cases item with
  | text t => rfl
  | markup m => rfl
  | expression e =>
    change (f.evaluate s e).map _ = ((f.evaluate s e).map _).map _
    cases f.evaluate s e <;> rfl

@[simp] theorem itemText_unplaced (f : Formatter) (item : ResolvedItem) :
    f.itemText item.unplaced = f.itemText item := by
  cases item <;> rfl

@[simp] theorem itemParts_unplaced (f : Formatter) (item : ResolvedItem) :
    f.itemParts item.unplaced = f.itemParts item := by
  cases item <;> rfl

/-- Items that look alike resolve to items that look alike. -/
theorem agree_resolveItem_of_unplaced_eq (f : Formatter) (s : Scope) {i j : PatternItem}
    (h : i.unplaced = j.unplaced) :
    Outcome.Agree (fun a b => a.unplaced = b.unplaced) (f.resolveItem s i) (f.resolveItem s j) := by
  refine Outcome.agree_of_map_eq ?_
  rw [← resolveItem_unplaced, ← resolveItem_unplaced, h]

/-- What a message shows does not depend on the places it was read from. -/
theorem format_eq_of_unplaced_eq {f g : Formatter} (h : f.ShowsLike g)
    (hm : f.message.unplaced = g.message.unplaced) (arguments : Arguments) :
    f.format arguments = g.format arguments ∧
      f.formatToParts arguments = g.formatToParts arguments := by
  have hdeclarations : f.message.declarations.map Declaration.unplaced =
      g.message.declarations.map Declaration.unplaced := congrArg Message.declarations hm
  have hdeclare : f.declare { arguments } g.message.declarations =
      f.declare { arguments } f.message.declarations := by
    rw [← declare_unplaced, ← hdeclarations, declare_unplaced]
  have hbody := Body.corresponds_of_unplaced_eq (congrArg Message.body hm)
  have hagree := agree_resolve h.toCallsLike hdeclare hbody fun s _ i j hij =>
    f.agree_resolveItem_of_unplaced_eq s hij
  constructor
  · refine format_eq_of_agree h (hagree.imp fun as bs hab => hab.imp fun a b heq => ?_)
    rw [← f.itemText_unplaced a, heq, f.itemText_unplaced]
  · refine formatToParts_eq_of_agree h (hagree.imp fun as bs hab => hab.imp fun a b heq => ?_)
    rw [← f.itemParts_unplaced a, heq, f.itemParts_unplaced]

/-- A compiled message shows what a message shows that looks like it. -/
theorem format_of_compile {locale a b : String} {functions : FunctionTable}
    {localizer : Localizer} {isolates : Bool} {f g : Formatter}
    (hf : compile locale a functions localizer isolates = .ok f)
    (hg : compile locale b functions localizer isolates = .ok g) {m : Message}
    (hm : g.message.unplaced = m.unplaced) (arguments : Arguments) :
    g.format arguments = { f with message := m }.format arguments ∧
      g.formatToParts arguments = { f with message := m }.formatToParts arguments := by
  have h := showsLike_of_compile hg hf
  have hshows : g.ShowsLike { f with message := m } :=
    ⟨⟨h.locale, h.functions, h.localizer⟩, h.isolates⟩
  exact format_eq_of_unplaced_eq hshows hm arguments

end Formatter

end Phrasebook
