import Phrasebook.Formatter
import Phrasebook.View.Render
import Phrasebook.Proofs.Outcome
import Phrasebook.Proofs.Tables

/-!
What arguments cannot change in a message.

`Node.erase` takes from a tree what may come from arguments: the values and texts of variables and
the options of markup. What is left is the tree of the erased parts (`Node.eraseAll_ofParts`), and
these depend on the pattern alone (`Formatter.erase_formatToParts`). The builtin renderers put the
options into no place but the targets of links, so a rendered message without these and without the
texts of its variables depends on the pattern alone, too. Main statement:
`Formatter.structure_ignores_arguments`.
-/

namespace Phrasebook

/-! ## Parts and trees without values -/

/-- A part that names a placeholder and shows nothing. -/
def ExpressionPart.blank (source : Option String) : ExpressionPart where
  kind := ""
  source := source
  parts := some []

/-- The part without its values. -/
def Part.erase : Part → Part
  | .markup kind name _ => .markup kind name []
  | .expression e => .expression (.blank e.source)
  | p => p

namespace Node

mutual

/-- The node without its values. -/
def erase : Node → Node
  | .text s => .text s
  | .variable name _ _ => .variable name none ""
  | .markup name _ children => .markup name [] (eraseAll children)

/-- The nodes without their values. -/
def eraseAll : List Node → List Node
  | [] => []
  | node :: rest => node.erase :: eraseAll rest

end

theorem eraseAll_append (a b : List Node) : eraseAll (a ++ b) = eraseAll a ++ eraseAll b := by
  induction a with
  | nil => rfl
  | cons node rest ih => simp [eraseAll, ih]

theorem erase_ofExpression (e : ExpressionPart) :
    (ofExpression e).erase = ofExpression (.blank e.source) := rfl

def Frame.erase (frame : Frame) : Frame := ⟨frame.name, [], eraseAll frame.children⟩

theorem Frame.erase_close (frame : Frame) : frame.close.erase = frame.erase.close := rfl

namespace Builder

/-- The tree in the making without its values. -/
def erase (b : Builder) : Builder := ⟨eraseAll b.nodes, b.frames.map Frame.erase⟩

theorem erase_add (b : Builder) (node : Node) : (b.add node).erase = b.erase.add node.erase := by
  cases hb : b.frames with
  | nil => simp [add, erase, hb, eraseAll_append, eraseAll]
  | cons frame outer => simp [add, erase, hb, Frame.erase, eraseAll_append, eraseAll]

theorem erase_leave (b : Builder) (name : String) :
    (b.leave name).erase = b.erase.leave name := by
  unfold leave
  cases hb : b.frames with
  | nil => simp [erase, hb]
  | cons frame outer =>
    have hframes : b.erase.frames = frame.erase :: outer.map Frame.erase := by simp [erase, hb]
    have hname : frame.erase.name = frame.name := rfl
    rw [hframes]
    dsimp only
    rw [hname]
    by_cases h : frame.name = name
    · rw [if_pos h, if_pos h, erase_add, Frame.erase_close]
      rfl
    · rw [if_neg h, if_neg h]

/-- Reading a part keeps values apart from everything else. -/
theorem erase_read (b : Builder) (p : Part) : (b.read p).erase = b.erase.read p.erase := by
  cases p with
  | text s => exact erase_add b (.text s)
  | isolation mark => rfl
  | expression e =>
    rw [read, erase_add, erase_ofExpression]
    rfl
  | markup kind name options =>
    cases kind with
    | opening => rfl
    | closing => exact erase_leave b name
    | standalone => exact erase_add b (.markup name options [])

theorem erase_foldl_read (parts : List Part) (b : Builder) :
    (parts.foldl read b).erase = (parts.map Part.erase).foldl read b.erase := by
  induction parts generalizing b with
  | nil => rfl
  | cons p parts ih => rw [List.foldl_cons, ih, erase_read, List.map_cons, List.foldl_cons]

theorem eraseAll_closeAll (nodes : List Node) (frames : List Frame) :
    eraseAll (closeAll nodes frames) = closeAll (eraseAll nodes) (frames.map Frame.erase) := by
  fun_induction closeAll nodes frames with
  | case1 => simp [closeAll]
  | case2 frame => simp [closeAll, eraseAll_append, eraseAll, Frame.erase_close]
  | case3 frame outer rest ih =>
    rw [ih]
    simp [closeAll, Frame.erase, eraseAll_append, eraseAll, Frame.erase_close]

theorem eraseAll_finish (b : Builder) : eraseAll b.finish = b.erase.finish :=
  eraseAll_closeAll b.nodes b.frames

end Builder

/-- The tree without values is the tree of the parts without values. -/
theorem eraseAll_ofParts (parts : List Part) :
    eraseAll (ofParts parts) = ofParts (parts.map Part.erase) := by
  rw [ofParts, Builder.eraseAll_finish, Builder.erase_foldl_read]
  rfl

end Node

/-! ## Patterns -/

/-- The parts of an item without values. -/
def PatternItem.outline (isolates : Bool) : PatternItem → List Part
  | .text s => [.text s]
  | .markup m => [.markup m.kind m.name []]
  | .expression e =>
    let part := Part.expression (.blank (some e.source))
    if isolates then [.isolation isolateStart, part, .isolation isolateEnd] else [part]

namespace Formatter

/-- The pattern that is shown for some arguments. -/
def shownPattern (f : Formatter) (arguments : Arguments) : Except FormatError Pattern := do
  let scope ← f.declare { arguments } f.message.declarations
  f.bodyPattern scope f.message.body

theorem eq_of_shownPattern (f : Formatter) {arguments : Arguments} {p shown : Pattern}
    (hbody : f.message.body = .pattern p) (h : f.shownPattern arguments = .ok shown) :
    shown = p := by
  obtain ⟨scope, -, h⟩ := Outcome.bind_eq_ok h
  rw [hbody] at h
  cases h
  rfl

theorem erase_itemParts (f : Formatter) {scope : Scope} {item : PatternItem} {r : ResolvedItem}
    (h : f.resolveItem scope item = .ok r) :
    (f.itemParts r).map Part.erase = item.outline f.isolates := by
  cases item with
  | text s =>
    cases h
    rfl
  | markup m =>
    cases h
    rfl
  | expression e =>
    obtain ⟨value, -, rfl⟩ := Outcome.map_eq_ok h
    cases hi : f.isolates <;> simp [itemParts, hi, PatternItem.outline, Part.erase, expressionPart]

theorem erase_flatMap_itemParts (f : Formatter) {scope : Scope} {items : Pattern}
    {rs : List ResolvedItem} (h : items.mapM (f.resolveItem scope) = .ok rs) :
    (rs.flatMap f.itemParts).map Part.erase = items.flatMap (·.outline f.isolates) := by
  induction items generalizing rs with
  | nil =>
    rw [List.mapM_nil] at h
    cases h
    rfl
  | cons item items ih =>
    rw [List.mapM_cons] at h
    obtain ⟨first, hfirst, h⟩ := Outcome.bind_eq_ok h
    obtain ⟨others, hothers, h⟩ := Outcome.bind_eq_ok h
    cases h
    rw [List.flatMap_cons, List.map_append, f.erase_itemParts hfirst, ih hothers,
      List.flatMap_cons]

/-- Without their values, the parts of a message are told by the pattern that it shows. -/
theorem erase_formatToParts (f : Formatter) {arguments : Arguments} {parts : List Part}
    (h : f.formatToParts arguments = .ok parts) :
    ∃ pattern, f.shownPattern arguments = .ok pattern ∧
      parts.map Part.erase = pattern.flatMap (·.outline f.isolates) := by
  obtain ⟨items, hitems, h⟩ := Outcome.bind_eq_ok h
  cases h
  obtain ⟨scope, hscope, hitems⟩ := Outcome.bind_eq_ok hitems
  obtain ⟨pattern, hpattern, hitems⟩ := Outcome.bind_eq_ok hitems
  refine ⟨pattern, ?_, f.erase_flatMap_itemParts hitems⟩
  rw [shownPattern, hscope]
  exact hpattern

end Formatter

/-! ## Views -/

/-- Attributes without the targets of links. -/
def View.withoutTargets (attributes : List (String × String)) : List (String × String) :=
  attributes.map fun a => if a.1 = "href" then (a.1, "") else a

/-- The renderer puts the children into an element that is the same for all options, but for the
targets of links. -/
def MarkupRenderer.Frames (renderer : MarkupRenderer) : Prop :=
  ∃ tag bare, ∀ input, ∃ attributes, renderer input = .ok (.element tag attributes input.children) ∧
    View.withoutTargets attributes = bare

theorem MarkupTable.frames_builtins : Table.Every MarkupRenderer.Frames builtins := by
  have hwrap : ∀ tag, (wrapIn tag).Frames := fun tag => ⟨tag, [], fun input => ⟨[], rfl, rfl⟩⟩
  have hlink : MarkupRenderer.Frames link :=
    ⟨"a", [("href", "")], fun input => ⟨_, rfl, by simp [View.withoutTargets]⟩⟩
  refine Table.every_nil.insertAll ?_
  intro p hp
  simp only [List.mem_cons, List.not_mem_nil, or_false] at hp
  rcases hp with rfl | rfl | rfl | rfl | rfl | rfl | rfl
  all_goals first | exact hwrap _ | exact hlink

namespace Node

mutual

/-- What a node was rendered to, without the text of a variable and the targets of links. -/
def bare : Node → View → View
  | .variable .., .text _ => .text ""
  | .markup _ _ children, .element tag attributes inside =>
    .element tag (View.withoutTargets attributes) (bareAll children inside)
  | _, v => v

/-- What nodes were rendered to, one view for each node, without the texts of variables and the
targets of links. -/
def bareAll : List Node → List View → List View
  | node :: nodes, v :: views => node.bare v :: bareAll nodes views
  | _, views => views

end

variable {markups : MarkupTable}

mutual

/-- A node and what is left of it without values render without fail, and to views that are the
same without what comes from values. -/
theorem bare_render (hm : markups.Every MarkupRenderer.Frames) : ∀ node : Node, ∃ v w,
    node.render [] markups = .ok [v] ∧ node.erase.render [] markups = .ok [w] ∧
      node.bare v = node.erase.bare w
  | .text s => ⟨_, _, rfl, rfl, rfl⟩
  | .variable name value shown => by
    refine ⟨.text shown, .text "", ?_, ?_, by simp [bare, erase]⟩
    · cases name <;> simp [render]
    · cases name <;> simp [render, erase]
  | .markup name options children => by
    obtain ⟨inside, outline, hinside, houtline, hbare⟩ := bareAll_renderAll hm children
    cases hfind : Table.find? markups name with
    | none =>
      refine ⟨.element defaultTag [] inside, .element defaultTag [] outline, ?_, ?_, ?_⟩
      · simp [render, hinside, hfind, bind, Except.bind, pure, Except.pure]
      · simp [erase, render, houtline, hfind, bind, Except.bind, pure, Except.pure]
      · simp [erase, bare, hbare]
    | some renderer =>
      obtain ⟨tag, attributes, hframes⟩ := hm name renderer hfind
      obtain ⟨as, has, hasBare⟩ := hframes ⟨inside, options⟩
      obtain ⟨bs, hbs, hbsBare⟩ := hframes ⟨outline, []⟩
      refine ⟨.element tag as inside, .element tag bs outline, ?_, ?_, ?_⟩
      · simp [render, hinside, hfind, has, bind, Except.bind, pure, Except.pure]
      · simp [erase, render, houtline, hfind, hbs, bind, Except.bind, pure, Except.pure]
      · simp [erase, bare, hbare, hasBare, hbsBare]

theorem bareAll_renderAll (hm : markups.Every MarkupRenderer.Frames) :
    ∀ nodes : List Node, ∃ vs ws, renderAll [] markups nodes = .ok vs ∧
      renderAll [] markups (eraseAll nodes) = .ok ws ∧
        bareAll nodes vs = bareAll (eraseAll nodes) ws
  | [] => ⟨[], [], rfl, rfl, rfl⟩
  | node :: rest => by
    obtain ⟨v, w, hv, hw, hbare⟩ := bare_render hm node
    obtain ⟨vs, ws, hvs, hws, hbares⟩ := bareAll_renderAll hm rest
    refine ⟨v :: vs, w :: ws, ?_, ?_, ?_⟩
    · simp [renderAll, hv, hvs, bind, Except.bind, pure, Except.pure]
    · simp [eraseAll, renderAll, hw, hws, bind, Except.bind, pure, Except.pure]
    · simp [eraseAll, bareAll, hbare, hbares]

end

/-- Trees that differ in values only render without fail, and to views that differ only where they
show values. -/
theorem bareAll_of_eraseAll_eq (hm : markups.Every MarkupRenderer.Frames) {a b : List Node}
    (h : eraseAll a = eraseAll b) : ∃ u v, renderAll [] markups a = .ok u ∧
      renderAll [] markups b = .ok v ∧ bareAll a u = bareAll b v := by
  obtain ⟨u, w, hu, hw, hbare⟩ := bareAll_renderAll hm a
  obtain ⟨v, w', hv, hw', hbare'⟩ := bareAll_renderAll hm b
  rw [← h, hw] at hw'
  cases hw'
  exact ⟨u, v, hu, hv, by rw [hbare, hbare', h]⟩

end Node

/-! ## Messages -/

namespace Formatter

/-- Arguments change nothing in the structure of a message: if two of them choose the same pattern,
the trees are the same without values, and both render to views that are the same without the texts
of variables and the targets of links. -/
theorem structure_ignores_arguments (f : Formatter) {a b : Arguments} {p q : List Part}
    (hp : f.formatToParts a = .ok p) (hq : f.formatToParts b = .ok q)
    (hsame : ∀ m, f.message.body = .choice m → f.shownPattern a = f.shownPattern b) :
    Node.eraseAll (Node.ofParts p) = Node.eraseAll (Node.ofParts q) ∧
      ∃ u v, Node.renderAll [] .builtins (Node.ofParts p) = .ok u ∧
        Node.renderAll [] .builtins (Node.ofParts q) = .ok v ∧
        Node.bareAll (Node.ofParts p) u = Node.bareAll (Node.ofParts q) v := by
  obtain ⟨shown, hshown, hpErased⟩ := f.erase_formatToParts hp
  obtain ⟨shown', hshown', hqErased⟩ := f.erase_formatToParts hq
  have hpattern : shown = shown' := by
    cases hbody : f.message.body with
    | pattern r => rw [f.eq_of_shownPattern hbody hshown, f.eq_of_shownPattern hbody hshown']
    | choice m =>
      rw [hsame m hbody, hshown'] at hshown
      exact (Except.ok.inj hshown).symm
  have herased : Node.eraseAll (Node.ofParts p) = Node.eraseAll (Node.ofParts q) := by
    rw [Node.eraseAll_ofParts, Node.eraseAll_ofParts, hpErased, hqErased, hpattern]
  exact ⟨herased, Node.bareAll_of_eraseAll_eq MarkupTable.frames_builtins herased⟩

/-- A choice, and markup that crosses. -/
def crossedSource : String :=
  ".match $s low \x7b\x7b\x7d\x7d " ++
    "* \x7b\x7b\x7b#b\x7d\x7b$x\x7d\x7b#link to=$t\x7dgo\x7b/b\x7d\x7b/link\x7d\x7d\x7d"

/-- Arguments that are missing choose the same variant as these do. -/
def crossedArguments : Arguments := [("s", .string "high"), ("t", .string "/x"), ("x", .null)]

theorem structure_ignores_arguments_crossed :
    ∃ f p q, compile "en" crossedSource .builtins .basic true = .ok f ∧
      f.formatToParts crossedArguments = .ok p ∧ f.formatToParts [] = .ok q ∧
      f.shownPattern crossedArguments = f.shownPattern [] ∧
      Node.eraseAll (Node.ofParts p) = Node.eraseAll (Node.ofParts q) ∧
      ∃ u v, Node.renderAll [] .builtins (Node.ofParts p) = .ok u ∧
        Node.renderAll [] .builtins (Node.ofParts q) = .ok v ∧
        Node.bareAll (Node.ofParts p) u = Node.bareAll (Node.ofParts q) v := by
  obtain ⟨f, hf, htest⟩ := Outcome.exists_of_any (compile "en" crossedSource .builtins .basic true)
    (fun f => (f.formatToParts crossedArguments).isOk && (f.formatToParts []).isOk &&
      (f.shownPattern crossedArguments).toOption = (f.shownPattern []).toOption) (by decide +kernel)
  simp only [Bool.and_eq_true, decide_eq_true_eq] at htest
  obtain ⟨⟨hp, hq⟩, hshown⟩ := htest
  obtain ⟨p, hp⟩ := Outcome.exists_of_isOk hp
  obtain ⟨q, hq⟩ := Outcome.exists_of_isOk hq
  have hsame : f.shownPattern crossedArguments = f.shownPattern [] := by
    obtain ⟨shown, hfirst, -⟩ := f.erase_formatToParts hp
    obtain ⟨shown', hsecond, -⟩ := f.erase_formatToParts hq
    rw [hfirst, hsecond] at hshown ⊢
    exact congrArg Except.ok (Option.some.inj hshown)
  exact ⟨f, p, q, hf, hp, hq, hsame, f.structure_ignores_arguments hp hq fun _ _ => hsame⟩

end Formatter

end Phrasebook
