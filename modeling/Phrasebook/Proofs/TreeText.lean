import Phrasebook.Tree

/-!
A tree holds the texts and variables of the parts it was rebuilt from, in their order.

Reading a part adds its leaf at the end of what the tree in the making holds, whether the part
nests well or not; closing the markup that is left open adds nothing (`leavesAll_ofParts`). So the
text of a tree is the text of its parts. Main statement: `flatten_ofParts`, for every sequence of
parts.
-/

namespace Phrasebook

namespace Part

/-- What a part adds to the text of a tree: markers and marks of direction add nothing. -/
def spoken : Part → String
  | .text s => s
  | .markup .. => ""
  | .isolation _ => ""
  | .expression e => e.text

/-- The words of a part that has any: a text, or what a placeholder's value shows. -/
def words? : Part → Option String
  | .text s => some s
  | .markup .. => none
  | .isolation _ => none
  | .expression e => some e.text

/-- What a part shows in plain text, marks of direction included. -/
def shown : Part → String
  | .isolation mark => mark
  | p => p.spoken

/-- Closing markers and marks of direction, which add no node of their own. -/
def Silent : Part → Prop
  | .markup .closing _ _ => True
  | .isolation _ => True
  | _ => False

/-- The text of parts in a row, without marks of direction. -/
def spokenAll (parts : List Part) : String := String.join (parts.map spoken)

/-- The text of parts in a row. -/
def shownAll (parts : List Part) : String := String.join (parts.map shown)

@[simp] theorem spokenAll_nil : spokenAll [] = "" := rfl

@[simp] theorem spokenAll_cons (p : Part) (parts : List Part) :
    spokenAll (p :: parts) = p.spoken ++ spokenAll parts := by simp [spokenAll]

theorem spokenAll_append (a b : List Part) : spokenAll (a ++ b) = spokenAll a ++ spokenAll b := by
  simp [spokenAll]

theorem spokenAll_eq_join_words (parts : List Part) :
    spokenAll parts = String.join (parts.filterMap words?) := by
  induction parts with
  | nil => rfl
  | cons p parts ih =>
    rw [spokenAll_cons, ih]
    cases p <;> simp [spoken, words?, List.filterMap_cons]

@[simp] theorem shownAll_nil : shownAll [] = "" := rfl

@[simp] theorem shownAll_cons (p : Part) (parts : List Part) :
    shownAll (p :: parts) = p.shown ++ shownAll parts := by simp [shownAll]

theorem shownAll_append (a b : List Part) : shownAll (a ++ b) = shownAll a ++ shownAll b := by
  simp [shownAll]

end Part

namespace Node

/-! ## Leaves -/

mutual

/-- The texts and variables in a node, from left to right. -/
def leaves : Node → List Node
  | .text s => [.text s]
  | .variable name value shown => [.variable name value shown]
  | .markup _ _ children => leavesAll children

/-- The texts and variables in nodes. -/
def leavesAll : List Node → List Node
  | [] => []
  | node :: rest => node.leaves ++ leavesAll rest

end

theorem leavesAll_concat (nodes : List Node) (node : Node) :
    leavesAll (nodes ++ [node]) = leavesAll nodes ++ node.leaves := by
  induction nodes with
  | nil => simp [leavesAll]
  | cons first rest ih => rw [List.cons_append, leavesAll, ih, leavesAll, List.append_assoc]

mutual

/-- The text of a node is in its leaves. -/
theorem join_leaves : ∀ node : Node, String.join (node.leaves.map textOf) = node.textOf
  | .text s => by simp [leaves, textOf]
  | .variable _ _ shown => by simp [leaves, textOf]
  | .markup _ _ children => join_leavesAll children

theorem join_leavesAll : ∀ nodes : List Node,
    String.join ((leavesAll nodes).map textOf) = flatten nodes
  | [] => rfl
  | node :: rest => by
    rw [leavesAll, List.map_append, String.join_append, join_leaves node, join_leavesAll rest,
      flatten]

end

/-- The leaf that a part adds to a tree. -/
def ofPart? : Part → Option Node
  | .text s => some (.text s)
  | .markup .. => none
  | .isolation _ => none
  | .expression e => some (ofExpression e)

namespace Builder

/-- The leaves inside open markup, from the outermost in. -/
def openLeaves : List Frame → List Node
  | [] => []
  | frame :: outer => openLeaves outer ++ leavesAll frame.children

/-- The leaves read so far. -/
def leaves (b : Builder) : List Node := leavesAll b.nodes ++ openLeaves b.frames

theorem leaves_add (b : Builder) (node : Node) : (b.add node).leaves = b.leaves ++ node.leaves := by
  cases hb : b.frames with
  | nil => simp [add, leaves, hb, openLeaves, leavesAll_concat]
  | cons frame outer => simp [add, leaves, hb, openLeaves, leavesAll_concat]

theorem leaves_leave (b : Builder) (name : String) : (b.leave name).leaves = b.leaves := by
  unfold leave
  cases hb : b.frames with
  | nil => rfl
  | cons frame outer =>
    dsimp only
    split
    · -- the children move from the frame into a node at the same place
      rw [leaves_add]
      simp [leaves, hb, openLeaves, Frame.close, Node.leaves]
    · rfl

/-- Reading a part adds its leaf. -/
theorem leaves_read (b : Builder) (p : Part) :
    (b.read p).leaves = b.leaves ++ (ofPart? p).toList := by
  cases p with
  | text s => simp [read, leaves_add, Node.leaves, ofPart?]
  | isolation mark => simp [read, ofPart?]
  | expression e => simp [read, leaves_add, ofExpression, Node.leaves, ofPart?]
  | markup kind name options =>
    cases kind with
    | opening => simp [read, enter, leaves, openLeaves, leavesAll, ofPart?]
    | closing => simp [read, leaves_leave, ofPart?]
    | standalone => simp [read, leaves_add, Node.leaves, leavesAll, ofPart?]

theorem leaves_foldl_read (parts : List Part) (b : Builder) :
    (parts.foldl read b).leaves = b.leaves ++ parts.filterMap ofPart? := by
  induction parts generalizing b with
  | nil => simp
  | cons p parts ih =>
    rw [List.foldl_cons, ih, leaves_read, List.append_assoc]
    cases h : ofPart? p <;> simp [h]

theorem leavesAll_closeAll (nodes : List Node) (frames : List Frame) :
    leavesAll (closeAll nodes frames) = leavesAll nodes ++ openLeaves frames := by
  fun_induction closeAll nodes frames with
  | case1 => simp [openLeaves]
  | case2 frame => simp [openLeaves, leavesAll_concat, Frame.close, Node.leaves]
  | case3 frame outer rest ih =>
    rw [ih]
    simp [openLeaves, leavesAll_concat, Frame.close, Node.leaves]

end Builder

/-- A tree has the leaves of its parts, in their order, however the markup nests. -/
theorem leavesAll_ofParts (parts : List Part) :
    leavesAll (ofParts parts) = parts.filterMap ofPart? := by
  have hread := Builder.leaves_foldl_read parts {}
  have hclose := Builder.leavesAll_closeAll (parts.foldl Builder.read {}).nodes
    (parts.foldl Builder.read {}).frames
  calc leavesAll (ofParts parts) = (parts.foldl Builder.read {}).leaves := hclose
    _ = Builder.leaves {} ++ parts.filterMap ofPart? := hread
    _ = parts.filterMap ofPart? := by simp [Builder.leaves, Builder.openLeaves, leavesAll]

/-! ## Text -/

/-- A tree says what its parts say. -/
theorem flatten_ofParts_eq_spokenAll (parts : List Part) :
    flatten (ofParts parts) = Part.spokenAll parts := by
  rw [← join_leavesAll, leavesAll_ofParts]
  induction parts with
  | nil => rfl
  | cons p parts ih =>
    rw [Part.spokenAll_cons, ← ih]
    cases p <;> simp [List.filterMap_cons, ofPart?, textOf, ofExpression, Part.spoken]

/-- No words of the parts are lost, doubled or put elsewhere in the tree. -/
theorem flatten_ofParts (parts : List Part) :
    flatten (ofParts parts) = String.join (parts.filterMap Part.words?) := by
  rw [flatten_ofParts_eq_spokenAll, Part.spokenAll_eq_join_words]

/-! ## Empty trees -/

theorem ofParts_nil : ofParts [] = [] := by simp [ofParts, Builder.finish, Builder.closeAll]

namespace Builder

/-- Nothing was read that stays in the tree. -/
def Blank (b : Builder) : Prop := b.nodes = [] ∧ b.frames = []

theorem not_blank_add (b : Builder) (node : Node) : ¬ (b.add node).Blank := by
  rintro ⟨hnodes, hframes⟩
  cases hb : b.frames <;> simp [add, hb] at hnodes hframes

theorem blank_of_leave {b : Builder} {name : String} (h : (b.leave name).Blank) : b.Blank := by
  unfold leave at h
  split at h
  · exact h
  · split at h
    · exact absurd h (not_blank_add _ _)
    · exact h

theorem blank_of_read {b : Builder} {p : Part} (h : (b.read p).Blank) : b.Blank ∧ p.Silent := by
  cases p with
  | text s => exact absurd h (not_blank_add _ _)
  | isolation mark => exact ⟨h, trivial⟩
  | expression e => exact absurd h (not_blank_add _ _)
  | markup kind name options =>
    cases kind with
    | opening => exact absurd h.2 (List.cons_ne_nil _ _)
    | closing => exact ⟨blank_of_leave h, trivial⟩
    | standalone => exact absurd h (not_blank_add _ _)

theorem silent_of_foldl_read {parts : List Part} {b : Builder}
    (h : (parts.foldl read b).Blank) : b.Blank ∧ ∀ p ∈ parts, p.Silent := by
  induction parts generalizing b with
  | nil => exact ⟨h, fun p hp => by cases hp⟩
  | cons p parts ih =>
    obtain ⟨hread, hrest⟩ := ih h
    obtain ⟨hb, hp⟩ := blank_of_read hread
    exact ⟨hb, List.forall_mem_cons.mpr ⟨hp, hrest⟩⟩

theorem closeAll_eq_nil {nodes : List Node} {frames : List Frame}
    (h : closeAll nodes frames = []) : nodes = [] ∧ frames = [] := by
  fun_induction closeAll nodes frames with
  | case1 => exact ⟨h, rfl⟩
  | case2 frame => simp at h
  | case3 frame outer rest ih => exact absurd (ih h).2 (List.cons_ne_nil _ _)

end Builder

theorem silent_of_ofParts_eq_nil {parts : List Part} (h : ofParts parts = []) :
    ∀ p ∈ parts, p.Silent :=
  (Builder.silent_of_foldl_read (b := {}) (Builder.closeAll_eq_nil h)).2

end Node

end Phrasebook
