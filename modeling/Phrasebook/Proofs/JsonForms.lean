import Phrasebook.Part.Encoding

/-!
Values and parts that their JSON form gives back.

JSON has no number that is not finite, and an object that is read becomes a map in order; a value
that has neither kind of trouble, at any depth, is `Value.Portable`. An optional field that holds
null is read as one that is missing, so a portable part holds no null there. Main statements:
`Value.ofJson_toJson`, `Part.ofJson?_toJson` and `Part.listOfJson?_listToJson`.
-/

namespace Phrasebook

/-! ## Tables in order -/

namespace Table

variable {α : Type} {t : Table α}

theorem insert_of_forall_lt {name : String} (h : ∀ p ∈ t, p.1 < name) (a : α) :
    t.insert name a = t ++ [(name, a)] := by
  induction t with
  | nil => rfl
  | cons p t ih =>
    obtain ⟨other, b⟩ := p
    obtain ⟨hlt, ht⟩ := List.forall_mem_cons.mp h
    have hne : name ≠ other := fun he => String.lt_irrefl name (he ▸ hlt)
    rw [insert, if_neg (String.lt_asymm hlt), if_neg hne, ih ht, List.cons_append]

theorem insertAll_of_sorted {pairs : List (String × α)} (h : Sorted (t ++ pairs)) :
    t.insertAll pairs = t ++ pairs := by
  induction pairs generalizing t with
  | nil => simp [insertAll]
  | cons p pairs ih =>
    have hlt : ∀ q ∈ t, q.1 < p.1 := fun q hq =>
      (List.pairwise_append.mp h).2.2 q hq p List.mem_cons_self
    rw [List.append_cons] at h ⊢
    rw [← ih h, ← insert_of_forall_lt hlt]
    rfl

/-- A table in order is the table of its pairs. -/
theorem ofList_of_sorted (h : t.Sorted) : ofList t = t := insertAll_of_sorted h

end Table

/-! ## Values -/

namespace Value

mutual

/-- All numbers in the value are finite, and its maps are in order. -/
def Portable : Value → Prop
  | .number x => x.isFinite = true
  | .list items => PortableItems items
  | .map entries => Table.Sorted entries ∧ PortableEntries entries
  | _ => True

def PortableItems : List Value → Prop
  | [] => True
  | v :: rest => v.Portable ∧ PortableItems rest

def PortableEntries : List (String × Value) → Prop
  | [] => True
  | (_, v) :: rest => v.Portable ∧ PortableEntries rest

end

theorem portableEntries_iff (entries : List (String × Value)) :
    PortableEntries entries ↔ ∀ p ∈ entries, p.2.Portable := by
  induction entries with
  | nil => simp [PortableEntries]
  | cons p rest ih => simp [PortableEntries, ih]

mutual

theorem ofJson_toJson (v : Value) (h : v.Portable) : ofJson v.toJson = v := by
  cases v with
  | null => rfl
  | bool b => rfl
  | number x =>
    have hx : x.isFinite = true := h
    simp [toJson, hx, ofJson]
  | string s => rfl
  | list items => simp [toJson, ofJson, itemsOfJson_itemsToJson items h]
  | map entries =>
    simp [toJson, ofJson, entriesOfJson_entriesToJson entries h.2, Table.ofList_of_sorted h.1]

theorem itemsOfJson_itemsToJson (items : List Value) (h : PortableItems items) :
    itemsOfJson (itemsToJson items) = items := by
  cases items with
  | nil => rfl
  | cons v rest =>
    simp [itemsToJson, itemsOfJson, ofJson_toJson v h.1, itemsOfJson_itemsToJson rest h.2]

theorem entriesOfJson_entriesToJson (entries : List (String × Value))
    (h : PortableEntries entries) : entriesOfJson (entriesToJson entries) = entries := by
  cases entries with
  | nil => rfl
  | cons p rest =>
    simp [entriesToJson, entriesOfJson, ofJson_toJson p.2 h.1,
      entriesOfJson_entriesToJson rest h.2]

end

/-- A value that reads back from an optional field, where null would be nothing. -/
def Told (v : Value) : Prop := v ≠ .null ∧ v.Portable

theorem toJson_ne_null {v : Value} (h : v.Told) : v.toJson ≠ .null := by
  obtain ⟨hnull, hportable⟩ := h
  cases v with
  | null => exact absurd rfl hnull
  | number x =>
    have hx : x.isFinite = true := hportable
    simp [toJson, hx]
  | _ => simp [toJson]

end Value

/-! ## Records -/

namespace Json

@[simp] theorem memberOf?_some (name : String) (v : Json) : memberOf? name (some v) = [(name, v)] :=
  rfl

@[simp] theorem filter_memberOf? (name other : String) (v : Option Json) :
    (memberOf? other v).filter (·.1 == name) = if other = name then memberOf? name v else [] := by
  by_cases h : other = name
  · subst h
    cases v <;> simp [memberOf?]
  · cases v <;> simp [memberOf?, h]

theorem fst_of_mem_memberOf? {name : String} {v : Option Json} {m : String × Json}
    (h : m ∈ memberOf? name v) : m.1 = name := by
  cases v with
  | none => cases h
  | some v =>
    rw [List.mem_singleton.mp h]

/-- A field of a record is the member of its name. -/
theorem fields?_cons {members : List (String × Json)} {name : String} {names : List String}
    {v : Option Json} {values : List (Option Json)}
    (hfirst : members.filter (·.1 == name) = memberOf? name v)
    (hrest : (object members).fields? names = some values) :
    (object members).fields? (name :: names) = some (v :: values) := by
  rw [fields?] at hrest ⊢
  rw [List.mapM_cons, hfirst, hrest]
  cases v <;> rfl

theorem tagged?_object {tag : String} {members : List (String × Json)}
    (h : ∀ m ∈ members, m.1 ≠ "type") :
    (object (("type", .string tag) :: members)).tagged? = some (tag, object members) := by
  have hnone : members.filter (·.1 == "type") = [] := by
    simpa [List.filter_eq_nil_iff] using h
  have hall : members.filter (·.1 != "type") = members := by
    simpa [List.filter_eq_self] using h
  simp [tagged?, hnone, hall]

/-- An optional field gives back what was written, unless that is null. -/
theorem optionalField?_map {α : Type} {read : Json → Option α} {write : α → Json} {a : Option α}
    (h : ∀ x, a = some x → write x ≠ .null ∧ read (write x) = some x) :
    optionalField? read (a.map write) = some a := by
  cases a with
  | none => rfl
  | some x =>
    obtain ⟨hnull, hread⟩ := h x rfl
    rw [Option.map_some]
    unfold optionalField?
    split
    · next heq => cases heq
    · next heq => exact absurd (Option.some.inj heq) hnull
    · next v _ heq =>
      cases heq
      rw [hread]
      rfl

theorem array?_map {α : Type} {read : Json → Option α} {write : α → Json} {as : List α}
    (h : ∀ a ∈ as, read (write a) = some a) : array? read (.array (as.map write)) = some as := by
  rw [array?]
  induction as with
  | nil => rfl
  | cons a as ih =>
    obtain ⟨ha, has⟩ := List.forall_mem_cons.mp h
    rw [List.map_cons, List.mapM_cons, ha, ih has]
    rfl

end Json

/-! ## Parts -/

theorem Value.optionalField?_toJson {v? : Option Value} (h : ∀ v, v? = some v → v.Told) :
    Json.optionalField? (some ∘ Value.ofJson) (v?.map Value.toJson) = some v? :=
  Json.optionalField?_map fun v hv =>
    ⟨Value.toJson_ne_null (h v hv), congrArg some (Value.ofJson_toJson v (h v hv).2)⟩

theorem optionalField?_string (s? : Option String) :
    Json.optionalField? Json.string? (s?.map .string) = some s? :=
  Json.optionalField?_map fun _ _ => ⟨by simp, rfl⟩

/-- The value of the sub-part is told. -/
def SubPart.Portable (p : SubPart) : Prop := ∀ v, p.value = some v → v.Told

theorem SubPart.ofJson?_toJson (p : SubPart) (h : p.Portable) : ofJson? p.toJson = some p := by
  have hfields : p.toJson.fields? ["type", "value"] =
      some [some (.string p.kind), p.value.map Value.toJson] := by
    apply Json.fields?_cons
    · simp
    · apply Json.fields?_cons
      · simp
      · rfl
  rw [ofJson?, hfields]
  simp only [Value.optionalField?_toJson h]
  rfl

/-- The values of the placeholder and of its sub-parts are told. -/
structure ExpressionPart.Portable (e : ExpressionPart) : Prop where
  value : ∀ v, e.value = some v → v.Told
  parts : ∀ parts, e.parts = some parts → ∀ p ∈ parts, p.Portable

theorem ExpressionPart.fields?_toMembers (e : ExpressionPart) :
    (Json.object e.toMembers).fields? ["kind", "source", "locale", "value", "parts"] =
      some [some (.string e.kind), e.source.map .string, e.locale.map .string,
        e.value.map Value.toJson, e.parts.map fun parts => .array (parts.map SubPart.toJson)] := by
  unfold toMembers
  repeat
    apply Json.fields?_cons
    · simp
  rfl

theorem ExpressionPart.fst_ne_type (e : ExpressionPart) : ∀ m ∈ e.toMembers, m.1 ≠ "type" := by
  intro m hm
  simp only [toMembers, List.mem_cons, List.mem_append] at hm
  rcases hm with rfl | ((hm | hm) | hm) | hm
  · simp
  all_goals simp [Json.fst_of_mem_memberOf? hm]

theorem ExpressionPart.ofJson?_toMembers (e : ExpressionPart) (h : e.Portable) :
    ofJson? (.object e.toMembers) = some e := by
  have hparts : Json.optionalField? (Json.array? SubPart.ofJson?)
      (e.parts.map fun parts => .array (parts.map SubPart.toJson)) = some e.parts :=
    Json.optionalField?_map fun parts hp =>
      ⟨by simp, Json.array?_map fun p hmem => SubPart.ofJson?_toJson p (h.parts parts hp p hmem)⟩
  rw [ofJson?, e.fields?_toMembers]
  simp only [optionalField?_string, Value.optionalField?_toJson h.value, hparts]
  rfl

theorem MarkupKind.ofJson?_name (kind : MarkupKind) :
    MarkupKind.ofJson? (.string kind.name) = some kind := by cases kind <;> rfl

namespace Part

/-- Every value in the part reads back from its JSON form. -/
def Portable : Part → Prop
  | .markup _ _ options => Table.Sorted options ∧ ∀ o ∈ options, o.2.Portable
  | .expression e => e.Portable
  | _ => True

/-- Options are left out where there are none. -/
def optionsMember (options : Options) : Option Json :=
  if options.isEmpty then none else some (.object (Value.entriesToJson options))

theorem optionsOfJson?_optionsMember {options : Options} (hsorted : Table.Sorted options)
    (h : ∀ o ∈ options, o.2.Portable) : optionsOfJson? (optionsMember options) = some options := by
  unfold optionsMember
  split
  · next hempty => rw [List.isEmpty_iff.mp hempty, optionsOfJson?]
  · have hentries := Value.entriesOfJson_entriesToJson options
      ((Value.portableEntries_iff options).mpr h)
    rw [optionsOfJson?, hentries, Table.ofList_of_sorted hsorted]

theorem toJson_markup (kind : MarkupKind) (name : String) (options : Options) :
    toJson (.markup kind name options) =
      .object (("type", .string "markup") :: ("kind", .string kind.name) ::
        ("name", .string name) :: Json.memberOf? "options" (optionsMember options)) := by
  cases options <;> simp [toJson, optionsMember, Json.memberOf?]

theorem ofJson?_toJson_markup (kind : MarkupKind) (name : String) {options : Options}
    (hsorted : Table.Sorted options) (h : ∀ o ∈ options, o.2.Portable) :
    ofJson? (toJson (.markup kind name options)) = some (.markup kind name options) := by
  have htagged : (toJson (.markup kind name options)).tagged? = some ("markup",
      .object (("kind", .string kind.name) :: ("name", .string name) ::
        Json.memberOf? "options" (optionsMember options))) := by
    rw [toJson_markup]
    apply Json.tagged?_object
    cases optionsMember options <;> simp [Json.memberOf?]
  have hfields : (Json.object (("kind", .string kind.name) :: ("name", .string name) ::
      Json.memberOf? "options" (optionsMember options))).fields? ["kind", "name", "options"] =
        some [some (.string kind.name), some (.string name), optionsMember options] := by
    repeat
      apply Json.fields?_cons
      · simp
    rfl
  rw [ofJson?, htagged]
  simp only [Option.bind_some, bind, if_true]
  rw [markupOfJson?, hfields]
  simp only [MarkupKind.ofJson?_name, optionsOfJson?_optionsMember hsorted h]
  rfl

theorem ofJson?_toJson (p : Part) (h : p.Portable) : ofJson? p.toJson = some p := by
  cases p with
  | text s => rfl
  | isolation mark => rfl
  | markup kind name options => exact ofJson?_toJson_markup kind name h.1 h.2
  | expression e =>
    have htagged : (toJson (.expression e)).tagged? = some ("expression", .object e.toMembers) :=
      Json.tagged?_object e.fst_ne_type
    rw [ofJson?, htagged]
    simp [ExpressionPart.ofJson?_toMembers e h]

/-- Portable parts are read back as they were. -/
theorem listOfJson?_listToJson {parts : List Part} (h : ∀ p ∈ parts, p.Portable) :
    listOfJson? (listToJson parts) = some parts :=
  Json.array?_map fun p hp => ofJson?_toJson p (h p hp)

end Part

end Phrasebook
