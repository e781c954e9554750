import Phrasebook.Proofs.Correspondence
import Phrasebook.Proofs.Shadowing

/-!
What messages read of their scopes.

A variable is read as an operand, as the value of an option or as a selector. `Formatter.Alike`
says that a name gives the same in two scopes wherever it stands, and `Formatter.evaluate_congr`
that an expression reads nothing but the names that it mentions. Scopes in which all names are
alike stay so as declarations are made, and the same is shown in them
(`Formatter.resolveAfter_congr`). Declarations leave alone what they do not declare
(`Formatter.locals_declare`).
-/

namespace Phrasebook

/-- The expression that is a variable, without a function. -/
def Expression.bare (name : String) : Expression := ⟨some (.variable name), none, .nowhere⟩

namespace Formatter

/-! ## Names -/

/-- The operand that a function gets for a variable, unless the variable is missing or a fallback.
A declared name may come without a value. -/
def operandValue (scope : Scope) (name : String) : Option (Option Value) :=
  match scope.locals.find? name with
  | some bound => if bound.isFallback then none else some bound.value
  | none => (scope.arguments.find? name).map some

theorem evaluate_bare {f : Formatter} {s : Scope} {e : Expression} {name : String}
    (hoperand : e.operand = some (.variable name)) (hfunction : e.function = none) :
    f.evaluate s e = f.evaluate s (.bare name) := by
  obtain ⟨operand, function, span⟩ := e
  cases hoperand
  cases hfunction
  rfl

theorem evaluate_annotated {f : Formatter} {s : Scope} {e : Expression} {name : String}
    {use : FunctionUse} (hoperand : e.operand = some (.variable name))
    (hfunction : e.function = some use) :
    f.evaluate s e =
      match operandValue s name with
      | some operand => f.call use.name e.source (resolveOptions s use.options) operand
      | none => .ok (.fallback e.source) := by
  simp only [evaluate, hoperand, hfunction, operandValue]
  cases s.locals.find? name with
  | some bound => cases hfallback : bound.isFallback <;> simp [hfallback, apply]
  | none => cases s.arguments.find? name <;> rfl

/-- The name gives the same in both scopes: shown alone, as the operand of a function, as the value
of an option and as a selector. -/
structure Alike (f : Formatter) (s t : Scope) (name : String) : Prop where
  shown : f.evaluate s (.bare name) = f.evaluate t (.bare name)
  operand : operandValue s name = operandValue t name
  option : optionValue s (.variable name) = optionValue t (.variable name)
  selector : f.selector s name = f.selector t name

variable {f : Formatter} {s t : Scope}

/-- Only what a name is bound to matters. -/
theorem alike_of_find?_eq {name : String} (hlocals : s.locals.find? name = t.locals.find? name)
    (harguments : s.arguments.find? name = t.arguments.find? name) : f.Alike s t name := by
  refine ⟨?_, ?_, ?_, ?_⟩
  · simp only [evaluate, Expression.bare, hlocals, harguments]
    rfl
  · rw [operandValue, operandValue, hlocals, harguments]
  · rw [optionValue, optionValue, hlocals, harguments]
  · rw [Formatter.selector, Formatter.selector, hlocals, harguments]

/-- A bound value that is not a fallback is shown as it is. -/
theorem evaluate_bound {name : String} {r : Resolved} (hbound : s.locals.find? name = some r)
    (hr : r.isFallback = false) : f.evaluate s (.bare name) = .ok r := by
  simp [evaluate, Expression.bare, hbound, hr]

/-- A name may as well be bound to a value that gives what the name gives. -/
theorem alike_of_bound {name : String} {r : Resolved} (harguments : s.arguments = t.arguments)
    (hbound : t.locals.find? name = some r)
    (hfallback : r.isFallback = true → r = .fallback ("$" ++ name))
    (hshown : f.evaluate s (.bare name) = .ok r)
    (hoperand : operandValue s name = if r.isFallback then none else some r.value)
    (hoption : optionValue s (.variable name) = r.value.or (s.arguments.find? name))
    (hselector : f.selector s name = .ok r.selector) : f.Alike s t name := by
  refine ⟨?_, ?_, ?_, ?_⟩
  · rw [hshown]
    cases hr : r.isFallback with
    | false => exact (evaluate_bound hbound hr).symm
    | true =>
      simp only [evaluate, Expression.bare, hbound, hr]
      exact congrArg Except.ok (hfallback hr)
  · rw [hoperand, operandValue, hbound]
  · rw [hoption, harguments, optionValue, hbound]
    rfl
  · rw [hselector, Formatter.selector, hbound]

theorem Alike.symm {name : String} (h : f.Alike s t name) : f.Alike t s name :=
  ⟨h.shown.symm, h.operand.symm, h.option.symm, h.selector.symm⟩

theorem Alike.trans {u : Scope} {name : String} (h : f.Alike s t name) (h' : f.Alike t u name) :
    f.Alike s u name :=
  ⟨h.shown.trans h'.shown, h.operand.trans h'.operand, h.option.trans h'.option,
    h.selector.trans h'.selector⟩

/-! ## Expressions and items -/

theorem resolveOptions_of_alike {entries : List OptionEntry}
    (h : ∀ name, OptionsTake name entries → f.Alike s t name) :
    resolveOptions s entries = resolveOptions t entries := by
  refine resolveOptions_congr fun o ho => ?_
  cases hvalue : o.value with
  | literal text => rfl
  | «variable» name => exact (h name ⟨o, ho, hvalue⟩).option

/-- An expression reads the names that it mentions, and no others. -/
theorem evaluate_congr {e : Expression} (h : ∀ name, e.Mentions name → f.Alike s t name) :
    f.evaluate s e = f.evaluate t e := by
  have hoptions : ∀ use, e.function = some use →
      resolveOptions s use.options = resolveOptions t use.options := fun use huse =>
    resolveOptions_of_alike fun name hname => h name (.inr ⟨use, huse, hname⟩)
  have happly : ∀ operand,
      f.apply s e.source e.function operand = f.apply t e.source e.function operand := by
    intro operand
    cases hfunction : e.function with
    | none => cases operand <;> rfl
    | some use => rw [apply, apply, hoptions use hfunction]
  cases hoperand : e.operand with
  | none => simp only [evaluate, hoperand, happly]
  | some operand =>
    cases operand with
    | literal text => simp only [evaluate, hoperand, happly]
    | «variable» name =>
      have hname := h name (.inl hoperand)
      cases hfunction : e.function with
      | none => rw [evaluate_bare hoperand hfunction, evaluate_bare hoperand hfunction, hname.shown]
      | some use =>
        rw [evaluate_annotated hoperand hfunction, evaluate_annotated hoperand hfunction,
          hname.operand, hoptions use hfunction]

/-- A name that the expression does not mention may be bound to anything. -/
theorem evaluate_insert_of_not_mentions {e : Expression} {x : String} (h : ¬ e.Mentions x)
    (value : Resolved) :
    f.evaluate { s with locals := s.locals.insert x value } e = f.evaluate s e := by
  refine evaluate_congr fun name hname => ?_
  have hne : name ≠ x := fun heq => h (heq ▸ hname)
  exact alike_of_find?_eq (Table.find?_insert_of_ne _ _ hne) rfl

/-- Scopes over the same arguments, in which all names are alike. -/
structure ReadsLike (f : Formatter) (s t : Scope) : Prop where
  arguments : s.arguments = t.arguments
  alike : ∀ name, f.Alike s t name

theorem resolveItem_congr (h : f.ReadsLike s t) (item : PatternItem) :
    f.resolveItem s item = f.resolveItem t item := by
  cases item with
  | text text => rfl
  | expression e => rw [resolveItem, resolveItem, evaluate_congr fun name _ => h.alike name]
  | markup m => rw [resolveItem, resolveItem, resolveOptions_of_alike fun name _ => h.alike name]

theorem bodyPattern_congr (h : f.ReadsLike s t) (body : Body) :
    f.bodyPattern s body = f.bodyPattern t body := by
  cases body with
  | pattern p => rfl
  | choice m =>
    have hselector : f.selector s = f.selector t := funext fun name => (h.alike name).selector
    rw [bodyPattern, bodyPattern, selectPattern, selectPattern, hselector]

/-! ## Declarations -/

/-- Names that are alike are so still once a name has been bound to one value in both scopes. -/
theorem ReadsLike.insert (h : f.ReadsLike s t) (name : String) (value : Resolved) :
    f.ReadsLike { s with locals := s.locals.insert name value }
      { t with locals := t.locals.insert name value } := by
  refine ⟨h.arguments, fun other => ?_⟩
  by_cases heq : other = name
  · subst heq
    have hlocals : (s.locals.insert other value).find? other =
        (t.locals.insert other value).find? other := by
      rw [Table.find?_insert_self, Table.find?_insert_self]
    exact alike_of_find?_eq hlocals (congrArg (Table.find? · other) h.arguments)
  · have hkept : ∀ u : Scope, f.Alike { u with locals := u.locals.insert name value } u other :=
      fun u => alike_of_find?_eq (Table.find?_insert_of_ne _ _ heq) rfl
    exact ((hkept s).trans (h.alike other)).trans (hkept t).symm

/-- Different names may be bound in either order. -/
theorem readsLike_insert_comm {x y : String} (h : x ≠ y) (a b : Resolved) :
    f.ReadsLike { s with locals := (s.locals.insert x a).insert y b }
      { s with locals := (s.locals.insert y b).insert x a } :=
  ⟨rfl, fun name => alike_of_find?_eq (Table.find?_insert_comm _ h a b name) rfl⟩

theorem agree_declare (h : f.ReadsLike s t) (ds : List Declaration) :
    Outcome.Agree f.ReadsLike (f.declare s ds) (f.declare t ds) := by
  induction ds generalizing s t with
  | nil => exact .ok h
  | cons d ds ih =>
    rw [declare, declare, evaluate_congr fun name _ => h.alike name]
    cases f.evaluate t d.expression with
    | error e => exact .error e
    | ok value => exact ih (h.insert d.name value)

/-- In scopes where all names are alike the same is shown. -/
theorem resolveAfter_congr (h : f.ReadsLike s t) (rest : List Declaration) :
    f.resolveAfter s rest = f.resolveAfter t rest := by
  refine (agree_declare h rest).bind_eq fun u v huv => ?_
  rw [bodyPattern_congr huv]
  exact congrArg _ (funext fun p => Outcome.mapM_congr fun item _ => resolveItem_congr huv item)

theorem arguments_declare {ds : List Declaration} (h : f.declare s ds = .ok t) :
    t.arguments = s.arguments :=
  declare_keeps (I := fun u => u.arguments = s.arguments) (fun _ _ _ _ hu _ => hu) rfl h

/-- A name that is not declared is bound to what it was bound to before. -/
theorem locals_declare {ds : List Declaration} {name : String} (hname : ∀ d ∈ ds, d.name ≠ name)
    (h : f.declare s ds = .ok t) : t.locals.find? name = s.locals.find? name := by
  refine declare_keeps (I := fun u => u.locals.find? name = s.locals.find? name) ?_ rfl h
  intro d hd u value hu _
  exact (Table.find?_insert_of_ne _ _ (hname d hd).symm).trans hu

theorem alike_declare {ds : List Declaration} {name : String} (hname : ∀ d ∈ ds, d.name ≠ name)
    (h : f.declare s ds = .ok t) : f.Alike s t name :=
  alike_of_find?_eq (locals_declare hname h).symm (by rw [arguments_declare h])

end Formatter

end Phrasebook
