import Phrasebook.Formatter
import Phrasebook.Proofs.JsonForms
import Phrasebook.Proofs.Outcome
import Phrasebook.Proofs.Tables

/-!
Formatted parts and their JSON form.

What a placeholder shows has one of five origins (`Formatter.Gives`). With the builtin functions,
and arguments that JSON can carry, each of them gives a value that JSON can carry, or else a number
that is not finite: `:number` reads such numbers from texts. So formatted parts are read back from
JSON as they were (`Formatter.listOfJson?_of_formatToParts`), but for two things that JSON has no
place for, numbers that are not finite and a placeholder's value that is null
(`Formatter.listOfJson?_ne_of_formatToParts`).
-/

namespace Phrasebook

/-! ## Where values come from -/

namespace Formatter

/-- What an expression may show in a scope. -/
inductive Gives (f : Formatter) (scope : Scope) : Resolved → Prop
  | fallback (source : String) : f.Gives scope (.fallback source)
  | string (s : String) : f.Gives scope (.string s)
  | argument {name : String} {v : Value} :
      scope.arguments.find? name = some v → f.Gives scope (.unknown v)
  | declared {name : String} {r : Resolved} :
      scope.locals.find? name = some r → f.Gives scope r
  | call {name : String} {function : MessageFunction} {call : FunctionCall} {options : Options}
      {operand : Option Value} {r : Resolved} :
      f.functions.find? name = some function → function call options operand = .ok r →
        f.Gives scope r

theorem gives_of_call {f : Formatter} {scope : Scope} {name source : String} {options : Options}
    {operand : Option Value} {r : Resolved} (h : f.call name source options operand = .ok r) :
    f.Gives scope r := by
  unfold call at h
  split at h
  · cases h
  · next function hfind => exact .call hfind h

theorem gives_of_implicit {f : Formatter} {scope : Scope} {source : String} {v : Value}
    {r : Resolved} (h : f.implicit source v = .ok r)
    (hv : (∃ s, v = .string s) ∨ ∃ name, scope.arguments.find? name = some v) :
    f.Gives scope r := by
  have hunknown : (∀ s, v ≠ .string s) → f.Gives scope (.unknown v) := by
    intro hne
    rcases hv with ⟨s, rfl⟩ | ⟨name, hfind⟩
    · exact absurd rfl (hne s)
    · exact .argument hfind
  unfold implicit at h
  split at h
  · next s =>
    cases h
    exact .string s
  · split at h
    · exact gives_of_call h
    · cases h
      exact hunknown fun s hs => by cases hs
  · next hstring _ =>
    cases h
    exact hunknown hstring

theorem gives_of_apply {f : Formatter} {scope : Scope} {source : String}
    {function : Option FunctionUse} {operand : Option Value} {r : Resolved}
    (h : f.apply scope source function operand = .ok r)
    (hv : function = none → ∀ v, operand = some v →
      (∃ s, v = .string s) ∨ ∃ name, scope.arguments.find? name = some v) :
    f.Gives scope r := by
  unfold apply at h
  split at h
  · exact gives_of_call h
  · next v => exact gives_of_implicit h (hv rfl v rfl)
  · cases h
    exact .fallback source

theorem gives_of_evaluate {f : Formatter} {scope : Scope} {e : Expression} {r : Resolved}
    (h : f.evaluate scope e = .ok r) : f.Gives scope r := by
  unfold evaluate at h
  split at h
  · exact gives_of_apply h fun _ v hv => by cases hv
  · next text _ =>
    refine gives_of_apply h fun _ v hv => .inl ⟨text, ?_⟩
    exact (Option.some.inj hv).symm
  · next name _ =>
    split at h
    · next bound hbound =>
      split at h
      · cases h
        exact .fallback e.source
      · split at h
        · cases h
          exact .declared hbound
        · next hfunction => exact gives_of_apply h fun hnone => by simp [hnone] at hfunction
    · split at h
      · next v hfind =>
        refine gives_of_apply h fun _ w hw => .inr ⟨name, ?_⟩
        rw [hfind, hw]
      · cases h
        exact .fallback e.source

/-- What holds of every value that an expression may show holds of all declared values. -/
theorem every_declare {f : Formatter} {P : Resolved → Prop} {arguments : Arguments}
    (hgives : ∀ scope r, scope.arguments = arguments → scope.locals.Every P →
      f.Gives scope r → P r) {ds : List Declaration} {s t : Scope}
    (harguments : s.arguments = arguments) (hs : s.locals.Every P) (h : f.declare s ds = .ok t) :
    t.arguments = arguments ∧ t.locals.Every P := by
  refine declare_keeps (I := fun u => u.arguments = arguments ∧ u.locals.Every P) ?_
    ⟨harguments, hs⟩ h
  rintro d - u value ⟨hu, hlocals⟩ hvalue
  exact ⟨hu, hlocals.insert d.name (hgives u value hu hlocals (gives_of_evaluate hvalue))⟩

end Formatter

/-! ## Values that JSON can carry -/

/-- Perhaps a number that is not finite, and else a value that JSON can carry. -/
def Value.Carried (v : Value) : Prop := (∃ x, v = .number x) ∨ v.Portable

/-- The value of a placeholder, and of each of its sub-parts, as the builtin functions give them. -/
structure Resolved.Carried (r : Resolved) : Prop where
  value : ∀ v, r.value = some v → v.Carried
  parts : ∀ parts, r.parts = some parts → ∀ p ∈ parts, p.Portable

/-- Whether the value has a JSON form, apart from what is in it. -/
def Value.hasJson : Value → Bool
  | .number x => x.isFinite
  | _ => true

theorem Value.Carried.portable {v : Value} (h : v.Carried) (hjson : v.hasJson = true) :
    v.Portable := by
  rcases h with ⟨x, rfl⟩ | h
  · exact hjson
  · exact h

namespace Part

/-- The values in the part, as formatting gives them. -/
def Carried : Part → Prop
  | .markup _ _ options => Table.Sorted options ∧ ∀ o ∈ options, o.2.Carried
  | .expression e =>
    (∀ v, e.value = some v → v.Carried) ∧ ∀ parts, e.parts = some parts → ∀ p ∈ parts, p.Portable
  | _ => True

/-- Whether each value in the part has a JSON form, and no placeholder's value is null. -/
def hasJson : Part → Bool
  | .markup _ _ options => options.all (·.2.hasJson)
  | .expression e => e.value.all fun v => !v.isNull && v.hasJson
  | _ => true

theorem Carried.portable {p : Part} (h : p.Carried) (hjson : p.hasJson = true) : p.Portable := by
  cases p with
  | text s => trivial
  | isolation mark => trivial
  | markup kind name options =>
    have hoptions := List.all_eq_true.mp hjson
    exact ⟨h.1, fun o ho => (h.2 o ho).portable (hoptions o ho)⟩
  | expression e =>
    constructor
    · intro v hv
      have hvalue : (!v.isNull && v.hasJson) = true := by simpa [hasJson, hv] using hjson
      obtain ⟨hnull, hjson⟩ := Bool.and_eq_true_iff.mp hvalue
      refine ⟨?_, (h.1 v hv).portable hjson⟩
      rintro rfl
      cases hnull
    · exact h.2

end Part

namespace SubPart

theorem portable_ofChars (kind : String) (cs : List Char) : (ofChars kind cs).Portable := by
  intro v hv
  cases hv
  exact ⟨by simp, trivial⟩

theorem portable_ofNumberText (s : String) : ∀ p ∈ ofNumberText s, p.Portable := by
  have hunsigned : ∀ cs, ∀ p ∈ ofUnsigned cs, p.Portable := by
    intro cs p hp
    unfold ofUnsigned at hp
    split at hp
    all_goals
      simp only [List.mem_cons, List.not_mem_nil, or_false] at hp
    · rw [hp]
      exact portable_ofChars _ _
    · rcases hp with rfl | rfl | rfl <;> exact portable_ofChars _ _
  intro p hp
  unfold ofNumberText at hp
  split at hp
  · rcases List.mem_cons.mp hp with rfl | hp
    · exact portable_ofChars _ _
    · exact hunsigned _ p hp
  · exact hunsigned _ p hp

theorem portable_nameRuns (fields : List String) (runs : List (List Char)) :
    ∀ p ∈ nameRuns fields runs, p.Portable := by
  induction runs generalizing fields with
  | nil => simp [nameRuns]
  | cons run rest ih =>
    rw [nameRuns]
    split
    · exact List.forall_mem_cons.mpr ⟨portable_ofChars _ _, ih _⟩
    · exact List.forall_mem_cons.mpr ⟨portable_ofChars _ _, ih _⟩

end SubPart

namespace Resolved

theorem carried_string (s : String) : (string s).Carried := by
  constructor
  · intro v hv
    cases hv
    exact .inr trivial
  · intro parts hparts
    cases hparts

theorem carried_unknown {v : Value} (h : v.Portable) : (unknown v).Carried := by
  constructor
  · intro w hw
    cases hw
    exact .inr h
  · intro parts hparts
    cases hparts

theorem carried_fallback (source : String) : (fallback source).Carried := by
  constructor
  · intro v hv
    cases hv
  · intro parts hparts
    cases hparts

end Resolved

/-! ## What the builtin functions give -/

namespace MessageFunction

/-- A text, a number that was written, or a date that was written. -/
inductive Built : Resolved → Prop
  | text (s : String) : Built (.string s)
  | number (call : FunctionCall) (x : Number) (limits : FractionLimits) (exactOnly : Bool) :
      Built (resolveNumber call x limits exactOnly)
  | instant (call : FunctionCall) (t : Instant) (styles : DateTimeStyles)
      (field : DateTimeField) : Built (resolveInstant call t styles field)

/-- All results of the function are built in one of these ways. -/
def Builds (function : MessageFunction) : Prop :=
  ∀ call options operand r, function call options operand = .ok r → Built r

theorem builds_string : string.Builds := by
  intro call options operand r h
  cases operand with
  | none => cases h
  | some v =>
    cases h
    exact .text _

theorem builds_number : number.Builds := by
  intro call options operand r h
  obtain ⟨x, -, h⟩ := Outcome.bind_eq_ok h
  obtain ⟨minimum, -, h⟩ := Outcome.bind_eq_ok h
  obtain ⟨maximum, -, h⟩ := Outcome.bind_eq_ok h
  obtain ⟨exactOnly, -, h⟩ := Outcome.bind_eq_ok h
  cases h
  exact .number ..

theorem builds_integer : integer.Builds := by
  intro call options operand r h
  obtain ⟨x, -, h⟩ := Outcome.bind_eq_ok h
  obtain ⟨exactOnly, -, h⟩ := Outcome.bind_eq_ok h
  cases h
  exact .number ..

theorem builds_datetime : datetime.Builds := by
  intro call options operand r h
  obtain ⟨dateStyle, -, h⟩ := Outcome.bind_eq_ok h
  obtain ⟨timeStyle, -, h⟩ := Outcome.bind_eq_ok h
  obtain ⟨t, -, h⟩ := Outcome.bind_eq_ok h
  cases h
  exact .instant ..

theorem builds_date : date.Builds := by
  intro call options operand r h
  obtain ⟨style, -, h⟩ := Outcome.bind_eq_ok h
  obtain ⟨t, -, h⟩ := Outcome.bind_eq_ok h
  cases h
  exact .instant ..

theorem builds_time : time.Builds := by
  intro call options operand r h
  obtain ⟨style, -, h⟩ := Outcome.bind_eq_ok h
  obtain ⟨t, -, h⟩ := Outcome.bind_eq_ok h
  cases h
  exact .instant ..

theorem builds_builtins : Table.Every Builds FunctionTable.builtins := by
  refine Table.every_nil.insertAll ?_
  intro p hp
  simp only [List.mem_cons, List.not_mem_nil, or_false] at hp
  rcases hp with rfl | rfl | rfl | rfl | rfl | rfl
  · exact builds_string
  · exact builds_number
  · exact builds_integer
  · exact builds_datetime
  · exact builds_date
  · exact builds_time

theorem Built.carried {r : Resolved} (h : Built r) : r.Carried := by
  cases h with
  | text s => exact Resolved.carried_string s
  | number call x limits exactOnly =>
    constructor
    · intro v hv
      cases hv
      exact .inl ⟨x, rfl⟩
    · intro parts hparts
      cases hparts
      exact SubPart.portable_ofNumberText _
  | instant call t styles field =>
    constructor
    · intro v hv
      cases hv
      exact .inr trivial
    · intro parts hparts
      cases hparts
      exact SubPart.portable_nameRuns _ _

end MessageFunction

/-! ## Messages -/

namespace Formatter

/-- Options in order, each of them the value of an operand. -/
structure Reads (scope : Scope) (options : Options) : Prop where
  sorted : Table.Sorted options
  values : ∀ o ∈ options, ∃ operand, optionValue scope operand = some o.2

theorem Reads.insert {scope : Scope} {options : Options} (h : Reads scope options) (name : String)
    {operand : Operand} {v : Value} (hv : optionValue scope operand = some v) :
    Reads scope (options.insert name v) := by
  constructor
  · exact Table.sorted_insert h.sorted name v
  · intro o ho
    rcases Table.mem_insert ho with rfl | ho
    · exact ⟨operand, hv⟩
    · exact h.values o ho

theorem reads_resolveOptions (scope : Scope) (entries : List OptionEntry) :
    Reads scope (resolveOptions scope entries) := by
  apply List.foldlRecOn
  · exact ⟨List.Pairwise.nil, fun o ho => absurd ho List.not_mem_nil⟩
  · intro options h entry _
    split
    · next v hv => exact h.insert entry.name hv
    · exact h

section

variable {f : Formatter} (hf : f.functions = .builtins) {arguments : Arguments}
  (ha : Table.Every Value.Portable arguments)
include ha

theorem carried_of_optionValue {scope : Scope} (hscope : scope.arguments = arguments)
    (hs : scope.locals.Every Resolved.Carried) {operand : Operand} {v : Value}
    (h : optionValue scope operand = some v) : v.Carried := by
  cases operand with
  | literal text =>
    cases h
    exact .inr trivial
  | «variable» name =>
    rcases Option.or_eq_some_iff.mp h with hlocal | ⟨-, hargument⟩
    · obtain ⟨bound, hbound, hvalue⟩ := Option.bind_eq_some_iff.mp hlocal
      exact (hs name bound hbound).value v hvalue
    · exact .inr (ha name v (hscope ▸ hargument))

include hf

theorem carried_of_gives {scope : Scope} (hscope : scope.arguments = arguments)
    (hs : scope.locals.Every Resolved.Carried) {r : Resolved} (h : f.Gives scope r) :
    r.Carried := by
  cases h with
  | fallback source => exact Resolved.carried_fallback source
  | string s => exact Resolved.carried_string s
  | argument hfind => exact Resolved.carried_unknown (ha _ _ (hscope ▸ hfind))
  | declared hfind => exact hs _ _ hfind
  | call hfind hr =>
    rw [hf] at hfind
    exact (MessageFunction.builds_builtins _ _ hfind _ _ _ _ hr).carried

theorem carried_of_resolveItem {scope : Scope} (hscope : scope.arguments = arguments)
    (hs : scope.locals.Every Resolved.Carried) {item : PatternItem} {r : ResolvedItem}
    (h : f.resolveItem scope item = .ok r) : ∀ p ∈ f.itemParts r, p.Carried := by
  cases item with
  | text s =>
    cases h
    simp [itemParts, Part.Carried]
  | markup m =>
    cases h
    have hoptions := reads_resolveOptions scope m.options
    simp only [itemParts, List.forall_mem_singleton]
    refine ⟨hoptions.sorted, fun o ho => ?_⟩
    obtain ⟨operand, hoperand⟩ := hoptions.values o ho
    exact carried_of_optionValue ha hscope hs hoperand
  | expression e =>
    obtain ⟨value, hvalue, rfl⟩ := Outcome.map_eq_ok h
    have hcarried := carried_of_gives hf ha hscope hs (gives_of_evaluate hvalue)
    have hpart : Part.Carried (.expression (f.expressionPart e.source value)) :=
      ⟨hcarried.value, hcarried.parts⟩
    simp only [itemParts]
    split
    · simpa [Part.Carried] using hpart
    · exact List.forall_mem_singleton.mpr hpart

/-- Whatever a formatted part holds, JSON can carry it or it is a number. -/
theorem carried_of_formatToParts {parts : List Part} (h : f.formatToParts arguments = .ok parts) :
    ∀ p ∈ parts, p.Carried := by
  obtain ⟨items, hitems, h⟩ := Outcome.bind_eq_ok h
  cases h
  obtain ⟨scope, hscope, hitems⟩ := Outcome.bind_eq_ok hitems
  obtain ⟨pattern, -, hitems⟩ := Outcome.bind_eq_ok hitems
  obtain ⟨harguments, hlocals⟩ := every_declare
    (fun s r harguments hs => carried_of_gives hf ha harguments hs) rfl Table.every_nil hscope
  intro p hp
  obtain ⟨r, hr, hp⟩ := List.mem_flatMap.mp hp
  obtain ⟨item, -, hitem⟩ := Outcome.mapM_eq_ok hitems r hr
  exact carried_of_resolveItem hf ha harguments hlocals hitem p hp

end

/-- Runs a message with the builtin functions, and finds that its parts pass a test. -/
theorem exists_parts_of_any (source : String) (arguments : Arguments) (test : List Part → Bool)
    (h : ((compile "en" source .builtins .basic true).toOption.any fun f =>
      (f.formatToParts arguments).toOption.any test) = true) :
    ∃ f parts, compile "en" source .builtins .basic true = .ok f ∧
      f.formatToParts arguments = .ok parts ∧ test parts = true := by
  obtain ⟨f, hf, h⟩ := Outcome.exists_of_any _ _ h
  obtain ⟨parts, hparts, h⟩ := Outcome.exists_of_any _ _ h
  exact ⟨f, parts, hf, hparts, h⟩

/-- Formatted parts are read back from their JSON form as they were, if each value in them has such
a form and no placeholder's value is null. -/
theorem listOfJson?_of_formatToParts {locale source : String} {localizer : Localizer}
    {isolates : Bool} {f : Formatter}
    (hf : compile locale source .builtins localizer isolates = .ok f) {arguments : Arguments}
    (ha : Table.Every Value.Portable arguments) {parts : List Part}
    (hparts : f.formatToParts arguments = .ok parts) (hjson : ∀ p ∈ parts, p.hasJson = true) :
    Part.listOfJson? (Part.listToJson parts) = some parts := by
  have hfunctions : f.functions = .builtins := by
    obtain ⟨message, -, hf⟩ := Outcome.bind_eq_ok hf
    cases hf
    rfl
  have hcarried := carried_of_formatToParts hfunctions ha hparts
  exact Part.listOfJson?_listToJson fun p hp => (hcarried p hp).portable (hjson p hp)

/-- A declared number that is both shown and taken as an option, after an argument. -/
def nestedSource : String :=
  ".local $n = \x7b|-1.5| :number\x7d \x7b\x7b\x7b$x\x7d\x7b#b o=$n /\x7d\x7b$n\x7d\x7d\x7d"

/-- A null within a list does no harm. -/
def nestedArguments : Arguments :=
  [("x", .map [("a", .list [.number .zero, .null]), ("b", .string "")])]

theorem portable_nestedArguments : Table.Every Value.Portable nestedArguments := by
  refine Table.every_nil.insert "x" ⟨?_, ⟨rfl, trivial, trivial⟩, trivial, trivial⟩
  exact List.pairwise_pair.mpr (by decide)

theorem listOfJson?_of_formatToParts_nested :
    Table.Every Value.Portable nestedArguments ∧ ∃ f parts,
      compile "en" nestedSource .builtins .basic true = .ok f ∧
      f.formatToParts nestedArguments = .ok parts ∧ (∀ p ∈ parts, p.hasJson = true) ∧
      Part.listOfJson? (Part.listToJson parts) = some parts := by
  obtain ⟨f, parts, hf, hparts, hall⟩ := exists_parts_of_any nestedSource nestedArguments
    (·.all Part.hasJson) (by decide +kernel)
  have hjson : ∀ p ∈ parts, p.hasJson = true := List.all_eq_true.mp hall
  have hread := listOfJson?_of_formatToParts hf portable_nestedArguments hparts hjson
  exact ⟨portable_nestedArguments, f, parts, hf, hparts, hjson, hread⟩

/-- Whether what is read back of parts has a JSON form, where the parts have none. -/
def losesValue (parts : List Part) : Bool :=
  !parts.all Part.hasJson && (Part.listOfJson? (Part.listToJson parts)).all (·.all Part.hasJson)

theorem listOfJson?_ne_some {parts : List Part} (h : losesValue parts = true) :
    Part.listOfJson? (Part.listToJson parts) ≠ some parts := by
  intro hread
  simp [losesValue, hread] at h

/-- A text may be read as a number that JSON does not have, and a null argument is read back as no
value at all. -/
theorem listOfJson?_ne_of_formatToParts :
    (∃ f parts, compile "en" "\x7b|inf| :number\x7d" .builtins .basic true = .ok f ∧
      f.formatToParts [] = .ok parts ∧ Part.listOfJson? (Part.listToJson parts) ≠ some parts) ∧
    Table.Every Value.Portable [("x", .null)] ∧
    ∃ f parts, compile "en" "\x7b$x\x7d" .builtins .basic true = .ok f ∧
      f.formatToParts [("x", .null)] = .ok parts ∧
      Part.listOfJson? (Part.listToJson parts) ≠ some parts := by
  constructor
  · obtain ⟨f, parts, hf, hparts, h⟩ :=
      exists_parts_of_any "\x7b|inf| :number\x7d" [] losesValue (by decide +kernel)
    exact ⟨f, parts, hf, hparts, listOfJson?_ne_some h⟩
  · obtain ⟨f, parts, hf, hparts, h⟩ :=
      exists_parts_of_any "\x7b$x\x7d" [("x", .null)] losesValue (by decide +kernel)
    exact ⟨Table.every_nil.insert "x" trivial, f, parts, hf, hparts, listOfJson?_ne_some h⟩

end Formatter

end Phrasebook
