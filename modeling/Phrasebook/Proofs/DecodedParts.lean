import Phrasebook.Json.Reading
import Phrasebook.Proofs.JsonForms
import Phrasebook.Proofs.Outcome
import Phrasebook.Proofs.Readers
import Phrasebook.Proofs.Tables

/-!
Parts that were read from JSON, and what becomes of them when they are written again.

The reader of parts is laxer than their writer: it takes null for a missing field, skips members
that it does not know and puts the members of an object in order. Whatever it makes of a JSON value
is portable all the same, so it is read back as it was written (`Part.listOfJson?_stable`). The
numbers of a JSON value are finite, which `Json.Finite` says and reading a text ensures.
-/

namespace Phrasebook

/-! ## Finite numbers -/

namespace Json

mutual

/-- All numbers in the value are finite. -/
def Finite : Json → Prop
  | .number x => x.isFinite = true
  | .array items => FiniteItems items
  | .object members => FiniteMembers members
  | _ => True

def FiniteItems : List Json → Prop
  | [] => True
  | v :: rest => v.Finite ∧ FiniteItems rest

def FiniteMembers : List (String × Json) → Prop
  | [] => True
  | (_, v) :: rest => v.Finite ∧ FiniteMembers rest

end

theorem finiteItems_iff (items : List Json) : FiniteItems items ↔ ∀ v ∈ items, v.Finite := by
  induction items with
  | nil => simp [FiniteItems]
  | cons v rest ih => simp [FiniteItems, ih]

theorem finiteMembers_iff (members : List (String × Json)) :
    FiniteMembers members ↔ ∀ m ∈ members, m.2.Finite := by
  induction members with
  | nil => simp [FiniteMembers]
  | cons m rest ih => simp [FiniteMembers, ih]

/-- What is in a field of a record is in the record. -/
theorem finite_of_fields? {v : Json} (hv : v.Finite) {names : List String}
    {values : List (Option Json)} (h : v.fields? names = some values) :
    ∀ w, some w ∈ values → w.Finite := by
  intro w hw
  cases v with
  | object members =>
    obtain ⟨name, -, hname⟩ := Outcome.mapM_eq_some h _ hw
    split at hname
    · cases hname
    · next m hm =>
      cases hname
      have hmem : m ∈ members.filter (·.1 == name) := by simp [hm]
      exact (finiteMembers_iff members).mp hv m (List.mem_filter.mp hmem).1
    · cases hname
  | array items =>
    rw [fields?] at h
    split at h
    · cases h
      rcases List.mem_append.mp hw with hw | hw
      · obtain ⟨item, hitem, heq⟩ := List.mem_map.mp hw
        cases heq
        exact (finiteItems_iff items).mp hv w hitem
      · cases (List.mem_replicate.mp hw).2
    · cases h
  | _ => cases h

/-- A field with something in it holds what can be read, and not null. -/
theorem optionalField?_eq_some {α : Type} {read : Json → Option α} {field : Option Json} {a : α}
    (h : optionalField? read field = some (some a)) :
    ∃ v, field = some v ∧ v ≠ .null ∧ read v = some a := by
  unfold optionalField? at h
  split at h
  · cases h
  · cases h
  · next v hnull =>
    obtain ⟨a', hread, heq⟩ := Option.map_eq_some_iff.mp h
    cases heq
    exact ⟨v, rfl, hnull, hread⟩

theorem array?_eq_some {α : Type} {read : Json → Option α} {v : Json} {as : List α}
    (hv : v.Finite) (h : array? read v = some as) :
    ∀ a ∈ as, ∃ item : Json, item.Finite ∧ read item = some a := by
  cases v with
  | array items =>
    intro a ha
    obtain ⟨item, hitem, hread⟩ := Outcome.mapM_eq_some h a ha
    exact ⟨item, (finiteItems_iff items).mp hv item hitem, hread⟩
  | _ => cases h

theorem finite_of_tagged? {v fields : Json} (hv : v.Finite) {tag : String}
    (h : v.tagged? = some (tag, fields)) : fields.Finite := by
  unfold tagged? at h
  split at h
  · next members =>
    split at h
    · cases h
      refine (finiteMembers_iff _).mpr fun m hm => ?_
      exact (finiteMembers_iff members).mp hv m (List.mem_filter.mp hm).1
    · cases h
  · cases h
    exact hv.2
  · cases h

end Json

/-! ## Values -/

namespace Value

mutual

/-- Whatever a JSON value is read as, it can be written. -/
theorem portable_ofJson (v : Json) (h : v.Finite) : (ofJson v).Portable := by
  cases v with
  | number x => exact h
  | array items => exact portableItems_itemsOfJson items h
  | object members =>
    refine ⟨Table.sorted_insertAll List.Pairwise.nil _, (portableEntries_iff _).mpr ?_⟩
    intro p hp
    rcases Table.mem_insertAll hp with hp | hp
    · cases hp
    · exact portable_entriesOfJson members h p hp
  | _ => trivial

theorem portableItems_itemsOfJson (items : List Json) (h : Json.FiniteItems items) :
    PortableItems (itemsOfJson items) := by
  cases items with
  | nil => trivial
  | cons v rest => exact ⟨portable_ofJson v h.1, portableItems_itemsOfJson rest h.2⟩

theorem portable_entriesOfJson (members : List (String × Json)) (h : Json.FiniteMembers members) :
    ∀ p ∈ entriesOfJson members, p.2.Portable := by
  cases members with
  | nil => exact fun p hp => (List.not_mem_nil hp).elim
  | cons m rest =>
    exact List.forall_mem_cons.mpr ⟨portable_ofJson m.2 h.1, portable_entriesOfJson rest h.2⟩

end

theorem ofJson_ne_null {v : Json} (h : v ≠ .null) : ofJson v ≠ .null := by
  cases v with
  | null => exact absurd rfl h
  | _ => simp [ofJson]

/-- An optional field that holds a value tells it. -/
theorem told_of_optionalField? {field : Option Json} {v? : Option Value}
    (hfield : ∀ w, field = some w → w.Finite)
    (h : Json.optionalField? (some ∘ ofJson) field = some v?) : ∀ v, v? = some v → v.Told := by
  rintro v rfl
  obtain ⟨w, hw, hnull, hread⟩ := Json.optionalField?_eq_some h
  cases hread
  exact ⟨ofJson_ne_null hnull, portable_ofJson w (hfield w hw)⟩

end Value

/-! ## Parts -/

theorem SubPart.portable_of_ofJson? {v : Json} (hv : v.Finite) {p : SubPart}
    (h : ofJson? v = some p) : p.Portable := by
  unfold ofJson? at h
  split at h
  · next kind value hfields =>
    obtain ⟨value', hvalue, h⟩ := Option.bind_eq_some_iff.mp h
    cases h
    refine Value.told_of_optionalField? ?_ hvalue
    rintro w rfl
    exact Json.finite_of_fields? hv hfields w (by simp)
  · cases h

theorem ExpressionPart.portable_of_ofJson? {v : Json} (hv : v.Finite) {e : ExpressionPart}
    (h : ofJson? v = some e) : e.Portable := by
  unfold ofJson? at h
  split at h
  · next kind source locale value parts hfields =>
    obtain ⟨source', -, h⟩ := Option.bind_eq_some_iff.mp h
    obtain ⟨locale', -, h⟩ := Option.bind_eq_some_iff.mp h
    obtain ⟨value', hvalue, h⟩ := Option.bind_eq_some_iff.mp h
    obtain ⟨parts', hparts, h⟩ := Option.bind_eq_some_iff.mp h
    cases h
    constructor
    · refine Value.told_of_optionalField? ?_ hvalue
      rintro w rfl
      exact Json.finite_of_fields? hv hfields w (by simp)
    · rintro subParts rfl p hp
      obtain ⟨w, rfl, -, hread⟩ := Json.optionalField?_eq_some hparts
      have hw := Json.finite_of_fields? hv hfields w (by simp)
      obtain ⟨item, hitem, hp⟩ := Json.array?_eq_some hw hread p hp
      exact SubPart.portable_of_ofJson? hitem hp
  · cases h

namespace Part

theorem portable_of_optionsOfJson? {field : Option Json} {options : Options}
    (hfield : ∀ w, field = some w → w.Finite) (h : optionsOfJson? field = some options) :
    Table.Sorted options ∧ ∀ o ∈ options, o.2.Portable := by
  unfold optionsOfJson? at h
  split at h
  · cases h
    exact ⟨List.Pairwise.nil, fun o ho => (List.not_mem_nil ho).elim⟩
  · next members =>
    cases h
    obtain ⟨hsorted, hentries⟩ := Value.portable_ofJson (.object members) (hfield _ rfl)
    exact ⟨hsorted, (Value.portableEntries_iff _).mp hentries⟩
  · cases h

theorem portable_of_markupOfJson? {v : Json} (hv : v.Finite) {p : Part}
    (h : markupOfJson? v = some p) : p.Portable := by
  unfold markupOfJson? at h
  split at h
  · next kind name options hfields =>
    obtain ⟨kind', -, h⟩ := Option.bind_eq_some_iff.mp h
    obtain ⟨options', hoptions, h⟩ := Option.bind_eq_some_iff.mp h
    cases h
    refine portable_of_optionsOfJson? ?_ hoptions
    rintro w rfl
    exact Json.finite_of_fields? hv hfields w (by simp)
  · cases h

/-- Whatever is read as a part, it can be written. -/
theorem portable_of_ofJson? {v : Json} (hv : v.Finite) {p : Part} (h : ofJson? v = some p) :
    p.Portable := by
  obtain ⟨⟨tag, fields⟩, htagged, h⟩ := Option.bind_eq_some_iff.mp h
  have hfields := Json.finite_of_tagged? hv htagged
  dsimp only at h
  split at h
  · obtain ⟨s, -, rfl⟩ := Option.map_eq_some_iff.mp h
    trivial
  · split at h
    · exact portable_of_markupOfJson? hfields h
    · split at h
      · obtain ⟨s, -, rfl⟩ := Option.map_eq_some_iff.mp h
        trivial
      · split at h
        · obtain ⟨e, he, rfl⟩ := Option.map_eq_some_iff.mp h
          exact ExpressionPart.portable_of_ofJson? hfields he
        · cases h

theorem portable_of_listOfJson? {v : Json} (hv : v.Finite) {parts : List Part}
    (h : listOfJson? v = some parts) : ∀ p ∈ parts, p.Portable := by
  intro p hp
  obtain ⟨item, hitem, hread⟩ := Json.array?_eq_some hv h p hp
  exact portable_of_ofJson? hitem hread

end Part

/-! ## Numbers in JSON text -/

namespace Json

open Reader

theorem isFinite_of_numberOf? {negative : Bool} {whole fraction : List Char} {e : Int} {x : Number}
    (h : numberOf? negative whole fraction e = some x) : x.isFinite = true := by
  unfold numberOf? Number.scaled? at h
  dsimp only at h
  repeat' split at h
  all_goals cases h
  all_goals rfl

theorem yields_numeral : Yields numeral fun x => x.isFinite = true := by
  unfold numeral
  have hlast (negative : Bool) (whole fraction : List Char) (e : Int) :
      Yields (liftM (numberOf? negative whole fraction e)) fun x => x.isFinite = true := by
    intro cs x rest hrun
    obtain ⟨x', hx, heq⟩ := Option.bind_eq_some_iff.mp hrun
    cases heq
    exact isFinite_of_numberOf? hx
  have hend (negative : Bool) (whole fraction : List Char) : Yields (do
      let e ← if (← Reader.peek).any (fun c => c == 'e' || c == 'E') then
          let _ ← Reader.next
          exponent
        else pure 0
      numberOf? negative whole fraction e) fun x => x.isFinite = true := by
    refine Yields.after fun next => ?_
    dsimp only
    split
    · exact Yields.after fun _ => Yields.after fun e => hlast negative whole fraction e
    · exact Yields.after fun e => hlast negative whole fraction e
  refine Yields.after fun negative => Yields.after fun whole => ?_
  split
  · exact Yields.bind (P := fun _ => False) yields_fail fun _ h => h.elim
  · refine Yields.after fun point => ?_
    dsimp only
    split
    · exact Yields.after fun fraction => hend negative whole fraction
    · exact Yields.after fun fraction => hend negative whole fraction

theorem yields_scalar : Yields scalar Finite := by
  unfold scalar
  refine Yields.after fun next => ?_
  split
  · exact Yields.after fun _ => .pure trivial
  · exact Yields.after fun _ => .pure trivial
  · exact Yields.after fun _ => .pure trivial
  · exact Yields.after fun _ => .pure trivial
  · exact yields_numeral.bind fun x hx => .pure hx

theorem yields_separated {α : Type} {P : α → Prop} {item : Reader α} (h : Yields item P)
    (closing : Char) : Yields (separated item closing) fun as => ∀ a ∈ as, P a := by
  unfold separated
  refine Yields.after fun _ => Yields.after fun next => ?_
  split
  · exact Yields.after fun _ => .pure fun a ha => (List.not_mem_nil ha).elim
  · refine h.bind fun first hfirst => ?_
    refine Yields.bind (P := fun others => ∀ a ∈ others, P a) (yields_many ?_) ?_
    · refine Yields.after fun _ => Yields.after fun more => ?_
      split
      · refine Yields.after fun _ => h.bind fun a ha => .pure ?_
        rintro a' ⟨⟩
        exact ha
      · exact .pure fun a ha => by cases ha
    · exact fun others hothers =>
        Yields.after fun _ => .pure (List.forall_mem_cons.mpr ⟨hfirst, hothers⟩)

theorem yields_value (depth : Nat) : Yields (value depth) Finite := by
  induction depth with
  | zero => exact yields_scalar
  | succ depth ih =>
    unfold value
    refine Yields.after fun next => ?_
    split
    · refine Yields.after fun _ => (yields_separated ih ']').bind fun items hitems => ?_
      exact .pure ((finiteItems_iff items).mpr hitems)
    · have hmember : Yields (member (value depth)) fun m => m.2.Finite := by
        unfold member
        refine Yields.after fun name => Yields.after fun _ => Yields.after fun _ => ?_
        exact Yields.after fun _ => ih.bind fun v hv => .pure hv
      refine Yields.after fun _ => (yields_separated hmember '\x7d').bind fun members h => ?_
      exact .pure ((finiteMembers_iff members).mpr h)
    · exact yields_scalar

/-- The numbers that a JSON text denotes are finite. -/
theorem finite_of_parse? {s : String} {v : Json} (h : parse? s = some v) : v.Finite := by
  have hdocument : Yields document Finite := by
    unfold document
    refine Yields.after fun _ => (yields_value depthLimit).bind fun v hv => ?_
    exact Yields.after fun _ => .pure hv
  unfold parse? run? at h
  split at h
  · next v' rest hrun =>
    cases h
    exact (hdocument.bind fun v hv => Yields.after fun _ => .pure hv) _ _ _ hrun
  · cases h

end Json

/-! ## Main statement -/

namespace Part

/-- The JSON form of the parts that a JSON value is read as. -/
def rewrittenJson? (v : Json) : Option Json := (listOfJson? v).map listToJson

/-- Parts that were read from JSON are read back from what is written of them, so writing them
again changes nothing more. -/
theorem listOfJson?_stable {v : Json} (hv : v.Finite) :
    (∀ parts, listOfJson? v = some parts → listOfJson? (listToJson parts) = some parts) ∧
      (rewrittenJson? v).bind rewrittenJson? = rewrittenJson? v := by
  have hread : ∀ parts, listOfJson? v = some parts →
      listOfJson? (listToJson parts) = some parts :=
    fun parts h => listOfJson?_listToJson (portable_of_listOfJson? hv h)
  refine ⟨hread, ?_⟩
  unfold rewrittenJson?
  cases h : listOfJson? v with
  | none => rfl
  | some parts => simp [hread parts h]

/-- Members out of order, unknown ones, nulls for what is missing, and a record as an array. -/
def laxText : String :=
  "[\x7b\"name\":\"b\",\"x\":[\x7b\x7d],\"options\":\x7b\"z\":[1e3,null],\"a\":-0,\"z\":5\x7d," ++
    "\"kind\":\x7b\"open\":null\x7d,\"type\":\"markup\"\x7d," ++
      "[\"expression\",\"number\",null,\"en\",null," ++
        "[[\"integer\",\x7b\"q\":1,\"p\":null\x7d],\x7b\"value\":null,\"type\":\"t\"\x7d]]]"

theorem listOfJson?_stable_lax :
    ∃ v parts, Json.parse? laxText = some v ∧ v.Finite ∧ listOfJson? v = some parts ∧
      listOfJson? (listToJson parts) = some parts := by
  have hread : ((Json.parse? laxText).bind listOfJson?).isSome = true := by decide +kernel
  obtain ⟨parts, hparts⟩ := Option.isSome_iff_exists.mp hread
  obtain ⟨v, hv, hparts⟩ := Option.bind_eq_some_iff.mp hparts
  have hfinite := Json.finite_of_parse? hv
  exact ⟨v, parts, hv, hfinite, hparts, (listOfJson?_stable hfinite).1 parts hparts⟩

end Part

end Phrasebook
