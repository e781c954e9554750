import Phrasebook.View.Render
import Phrasebook.Proofs.Shadowing

/-!
Overrides act where they apply.

A tree looks a slot up by the names of its variables and of its markup, and a markup renderer by the
names of its markup that no slot stands for. `Node.slotNames` and `Node.markupNames` collect these
names; overrides that agree on them render a tree alike, to the same views or to the same error
(`Node.renderAll_congr`). Main statement: `Node.renderAll_of_agree`, which also says which overrides
may be changed without effect.
-/

namespace Phrasebook

/-- Binding a name changes nothing but what it is bound to. -/
theorem Table.agreeOff_insert {α : Type} (t : Table α) (name : String) (a : α) :
    t.AgreeOff name (t.insert name a) :=
  fun _ hne => (find?_insert_of_ne t a hne).symm

namespace Node

/-! ## Names in a tree -/

mutual

/-- The names of the variables and of the markup in a node. -/
def slotNames : Node → List String
  | .text _ => []
  | .variable name _ _ => name.toList
  | .markup name _ children => name :: slotNamesAll children

/-- The names of the variables and of the markup in nodes. -/
def slotNamesAll : List Node → List String
  | [] => []
  | node :: rest => node.slotNames ++ slotNamesAll rest

end

mutual

/-- The names of the markup in a node. -/
def markupNames : Node → List String
  | .text _ => []
  | .variable _ _ _ => []
  | .markup name _ children => name :: markupNamesAll children

/-- The names of the markup in nodes. -/
def markupNamesAll : List Node → List String
  | [] => []
  | node :: rest => node.markupNames ++ markupNamesAll rest

end

/-! ## Overrides that agree -/

variable {slots slots' : Slots} {markups markups' : MarkupTable}

mutual

/-- A node calls its overrides by name, and a renderer only where there is no slot. -/
theorem render_congr : ∀ node : Node,
    (∀ name ∈ node.slotNames, slots.find? name = slots'.find? name) →
    (∀ name ∈ node.markupNames, slots.find? name = none →
      markups.find? name = markups'.find? name) →
    node.render slots markups = node.render slots' markups'
  | .text _, _, _ => rfl
  | .variable none _ _, _, _ => rfl
  | .variable (some name) value shown, hslots, _ => by
    have hslot := hslots name (by simp [slotNames])
    simp only [render, Option.bind_some, hslot]
  | .markup name options children, hslots, hmarkups => by
    have hslot := hslots name (by simp [slotNames])
    have hinside := renderAll_congr children
      (fun other hother => hslots other (by simp [slotNames, hother]))
      (fun other hother => hmarkups other (by simp [markupNames, hother]))
    simp only [render, hinside]
    refine congrArg _ (funext fun rendered => ?_)
    cases hfind : slots.find? name with
    | some slot => rw [← hslot, hfind]
    | none =>
      have hmarkup := hmarkups name (by simp [markupNames]) hfind
      rw [← hslot, hfind, hmarkup]

theorem renderAll_congr : ∀ nodes : List Node,
    (∀ name ∈ slotNamesAll nodes, slots.find? name = slots'.find? name) →
    (∀ name ∈ markupNamesAll nodes, slots.find? name = none →
      markups.find? name = markups'.find? name) →
    renderAll slots markups nodes = renderAll slots' markups' nodes
  | [], _, _ => rfl
  | node :: rest, hslots, hmarkups => by
    have hfirst := render_congr node
      (fun name hname => hslots name (by simp [slotNamesAll, hname]))
      (fun name hname => hmarkups name (by simp [markupNamesAll, hname]))
    have hothers := renderAll_congr rest
      (fun name hname => hslots name (by simp [slotNamesAll, hname]))
      (fun name hname => hmarkups name (by simp [markupNamesAll, hname]))
    rw [renderAll, renderAll, hfirst, hothers]

end

/-- A renderer that no markup of the tree calls, for it has a slot or does not occur. -/
theorem renderAll_of_agreeOff_markups {nodes : List Node} {name : String}
    (h : Table.AgreeOff name markups markups')
    (hname : slots.contains name = true ∨ name ∉ markupNamesAll nodes) :
    renderAll slots markups' nodes = renderAll slots markups nodes := by
  refine (renderAll_congr nodes (fun _ _ => rfl) fun other hother hnone => ?_).symm
  refine h other ?_
  rintro rfl
  rcases hname with hslot | hfree
  · rw [Table.contains, hnone] at hslot
    cases hslot
  · exact hfree hother

/-- A slot that the tree does not name. -/
theorem renderAll_of_agreeOff_slots {nodes : List Node} {name : String}
    (h : Table.AgreeOff name slots slots') (hname : name ∉ slotNamesAll nodes) :
    renderAll slots' markups nodes = renderAll slots markups nodes := by
  refine (renderAll_congr nodes (fun other hother => h other ?_) fun _ _ _ => rfl).symm
  rintro rfl
  exact hname hother

/-- Overrides act where they apply. Slots that agree on the names in a tree, with renderers that
agree on the names of its markup without a slot, render it alike, failures included. So a renderer
that a slot hides, and an override that the tree does not name, may be changed, added or removed
without effect, whether or not it fails. -/
theorem renderAll_of_agree (nodes : List Node) (slots : Slots) (markups : MarkupTable) :
    (∀ slots' markups', (∀ name ∈ slotNamesAll nodes, slots.find? name = slots'.find? name) →
      (∀ name ∈ markupNamesAll nodes, slots.find? name = none →
        markups.find? name = markups'.find? name) →
      renderAll slots markups nodes = renderAll slots' markups' nodes) ∧
    (∀ name markups', Table.AgreeOff name markups markups' →
      slots.contains name = true ∨ name ∉ markupNamesAll nodes →
        renderAll slots markups' nodes = renderAll slots markups nodes) ∧
    ∀ name slots', Table.AgreeOff name slots slots' → name ∉ slotNamesAll nodes →
      renderAll slots' markups nodes = renderAll slots markups nodes :=
  ⟨fun _ _ => renderAll_congr nodes, fun _ _ => renderAll_of_agreeOff_markups,
    fun _ _ => renderAll_of_agreeOff_slots⟩

/-- Markup around a variable of the same name and around other markup. -/
def sharedTree : List Node :=
  [.markup "bold" [] [.variable (some "bold") none "x", .markup "mark" [] [.text "y"]]]

/-- A slot for the name that the markup and the variable share. -/
def sharedSlots : Slots := [("bold", fun props => .ok (.element "b" [] props.children))]

/-- A slot that nothing calls and a renderer that a slot hides may fail. -/
theorem renderAll_of_agree_shared :
    let slots := sharedSlots.insert "gone" fun _ => .error (.slot "gone" "no")
    let markups := MarkupTable.builtins.insert "bold" fun _ => .error (.markup "bold" "no")
    (renderAll slots markups sharedTree = renderAll sharedSlots .builtins sharedTree ∧
      renderAll sharedSlots markups sharedTree = renderAll sharedSlots .builtins sharedTree ∧
      renderAll slots .builtins sharedTree = renderAll sharedSlots .builtins sharedTree) ∧
    (renderAll sharedSlots .builtins sharedTree).isOk = true := by
  intro slots markups
  have hnames : "gone" ∉ slotNamesAll sharedTree := by decide
  have hslots : Table.AgreeOff "gone" sharedSlots slots := Table.agreeOff_insert _ _ _
  have hmarkups : Table.AgreeOff "bold" MarkupTable.builtins markups :=
    Table.agreeOff_insert _ _ _
  have hbold : sharedSlots.contains "bold" = true := rfl
  obtain ⟨hboth, hrenderer, hslot⟩ := renderAll_of_agree sharedTree sharedSlots .builtins
  refine ⟨⟨(hboth slots markups ?_ ?_).symm, hrenderer "bold" markups hmarkups (.inl hbold),
    hslot "gone" slots hslots hnames⟩, rfl⟩
  · exact fun name hname => hslots name fun heq => hnames (heq ▸ hname)
  · intro name _ hnone
    refine hmarkups name ?_
    rintro rfl
    rw [Table.contains, hnone] at hbold
    cases hbold

end Node

end Phrasebook
