import Phrasebook.Tree

/-!
Parts that nest well, and what becomes of parts that do not.

`Nested.partsAll` gives the parts of a forest, each markup between its two markers, and
`Node.ofParts` takes them back to the forest (`ofParts_partsAll`). Any other parts give the tree of
their normal form: `Part.normalize` drops what adds no node, opens and closes standalone markup,
drops the closing markers that belong to no open markup and closes what is left open. A normal
form is the parts of a forest (`exists_normalize_eq_partsAll`) and has the same tree
(`ofParts_normalize`). Main statement: `ofParts_partsAll_and_normalize`.
-/

namespace Phrasebook

/-! ## Forests of parts -/

/-- A text, a placeholder's value, or markup around others. A tree does not keep the options of
a closing marker, but a marker may have some. -/
inductive Nested where
  | text (s : String)
  | expression (e : ExpressionPart)
  | markup (name : String) (options closing : Options) (children : List Nested)

namespace Nested

mutual

/-- The parts in a row; markup gives its markers around the parts of its children. -/
def parts : Nested → List Part
  | .text s => [.text s]
  | .expression e => [.expression e]
  | .markup name options closing children =>
    .markup .opening name options :: (partsAll children ++ [.markup .closing name closing])

/-- The parts of a forest. -/
def partsAll : List Nested → List Part
  | [] => []
  | t :: rest => t.parts ++ partsAll rest

end

mutual

/-- The node that stands for it in a tree. -/
def node : Nested → Node
  | .text s => .text s
  | .expression e => .ofExpression e
  | .markup name options _ children => .markup name options (nodes children)

/-- The nodes that stand for a forest. -/
def nodes : List Nested → List Node
  | [] => []
  | t :: rest => t.node :: nodes rest

end

end Nested

/-! ## Normal forms -/

namespace Part

/-- A part without what adds no node, and with standalone markup opened and closed. -/
def expand : Part → List Part
  | .isolation _ => []
  | .markup .standalone name options =>
    [.markup .opening name options, .markup .closing name []]
  | p => [p]

/-- Drops each closing marker that does not belong to the innermost open markup, and closes at
the end what is open still. The names of the open markup are given, the innermost first. -/
def balance : List String → List Part → List Part
  | opened, [] => opened.map (.markup .closing · [])
  | opened, .markup .opening name options :: rest =>
    .markup .opening name options :: balance (name :: opened) rest
  | opened, .markup .closing name options :: rest =>
    if opened.head? = some name then
      .markup .closing name options :: balance opened.tail rest
    else balance opened rest
  | opened, p :: rest => p :: balance opened rest

/-- The parts of a forest that parts stand for. -/
def normalize (parts : List Part) : List Part := balance [] (parts.flatMap expand)

/-- Parts that bring to an end a forest in which markup of the given names is open: the rest of
the innermost, its closing marker, and so on outwards. -/
inductive Completes : List String → List Part → Prop
  | forest (ts : List Nested) : Completes [] (Nested.partsAll ts)
  | close {name : String} {outer : List String} {rest : List Part} (ts : List Nested)
      (closing : Options) :
      Completes outer rest →
        Completes (name :: outer) (Nested.partsAll ts ++ .markup .closing name closing :: rest)

theorem Completes.cons {opened : List String} {rest : List Part} (h : Completes opened rest)
    (t : Nested) : Completes opened (t.parts ++ rest) := by
  cases h with
  | forest ts => exact .forest (t :: ts)
  | close ts closing h =>
    rw [← List.append_assoc]
    exact .close (t :: ts) closing h

/-- Markup that is opened and completed is one more tree of the forest around it. -/
theorem Completes.enter {name : String} {opened : List String} {rest : List Part}
    (h : Completes (name :: opened) rest) (options : Options) :
    Completes opened (.markup .opening name options :: rest) := by
  cases h with
  | @close _ _ after ts closing h =>
    have hmarkup := h.cons (.markup name options closing ts)
    rwa [Nested.parts, List.cons_append, List.append_assoc] at hmarkup

theorem completes_closers (opened : List String) :
    Completes opened (opened.map (.markup .closing · [])) := by
  induction opened with
  | nil => exact .forest []
  | cons name outer ih => exact .close [] [] ih

theorem completes_balance (opened : List String) (parts : List Part) :
    Completes opened (balance opened (parts.flatMap expand)) := by
  induction parts generalizing opened with
  | nil => exact completes_closers opened
  | cons p parts ih =>
    cases p with
    | text s => exact (ih opened).cons (.text s)
    | expression e => exact (ih opened).cons (.expression e)
    | isolation mark => exact ih opened
    | markup kind name options =>
      cases kind with
      | opening => exact (ih (name :: opened)).enter options
      | closing =>
        simp only [List.flatMap_cons, expand, List.singleton_append, balance]
        split
        · next h =>
          cases opened with
          | nil => cases h
          | cons top outer =>
            cases h
            exact .close [] options (ih outer)
        · exact ih opened
      | standalone =>
        simp only [List.flatMap_cons, expand, List.cons_append, List.nil_append, balance,
          List.head?_cons, if_true, List.tail_cons]
        exact (ih opened).cons (.markup name options [] [])

theorem Completes.exists_eq_partsAll {parts : List Part} (h : Completes [] parts) :
    ∃ forest, parts = Nested.partsAll forest := by
  cases h with
  | forest ts => exact ⟨ts, rfl⟩

/-- A normal form nests well. -/
theorem exists_normalize_eq_partsAll (parts : List Part) :
    ∃ forest, normalize parts = Nested.partsAll forest :=
  (completes_balance [] parts).exists_eq_partsAll

end Part

/-! ## Trees -/

namespace Node

namespace Builder

/-- The names of the open markup, the innermost first. -/
def opened (b : Builder) : List String := b.frames.map (·.name)

theorem opened_add (b : Builder) (node : Node) : (b.add node).opened = b.opened := by
  cases hb : b.frames <;> simp [add, opened, hb]

/-- Markup that is closed as soon as it is opened is one node without children. -/
theorem leave_enter (b : Builder) (name : String) (options : Options) :
    (b.enter name options).leave name = b.add (.markup name options []) := by
  simp [enter, leave, Frame.close]

theorem leave_of_opened {b : Builder} {name : String} (h : b.opened.head? ≠ some name) :
    b.leave name = b := by
  unfold leave
  cases hb : b.frames with
  | nil => rfl
  | cons frame outer =>
    have hne : frame.name ≠ name := by simpa [opened, hb] using h
    simp [hne]

theorem opened_leave {b : Builder} {name : String} (h : b.opened.head? = some name) :
    (b.leave name).opened = b.opened.tail := by
  unfold leave
  cases hb : b.frames with
  | nil => simp [opened, hb] at h
  | cons frame outer =>
    have heq : frame.name = name := by simpa [opened, hb] using h
    dsimp only
    rw [if_pos heq, opened_add, opened, opened, hb, List.map_cons, List.tail_cons]

/-- Closing the innermost markup is what the end of the parts does first. -/
theorem finish_leave {b : Builder} {name : String} (h : b.opened.head? = some name) :
    (b.leave name).finish = b.finish := by
  unfold leave
  cases hb : b.frames with
  | nil => simp [opened, hb] at h
  | cons frame outer =>
    have heq : frame.name = name := by simpa [opened, hb] using h
    cases outer with
    | nil => simp [heq, finish, add, hb, closeAll]
    | cons next rest => simp [heq, finish, add, hb, closeAll]

/-! ### Normal forms -/

theorem foldl_read_expand (b : Builder) (p : Part) : p.expand.foldl read b = b.read p := by
  cases p with
  | text s => rfl
  | isolation mark => rfl
  | expression e => rfl
  | markup kind name options =>
    cases kind with
    | opening => rfl
    | closing => rfl
    | standalone => exact leave_enter b name options

theorem foldl_read_flatMap_expand (parts : List Part) (b : Builder) :
    (parts.flatMap Part.expand).foldl read b = parts.foldl read b := by
  induction parts generalizing b with
  | nil => rfl
  | cons p parts ih =>
    rw [List.flatMap_cons, List.foldl_append, foldl_read_expand, ih, List.foldl_cons]

theorem finish_closers {opened : List String} {b : Builder} (h : b.opened = opened) :
    ((opened.map (Part.markup .closing · [])).foldl read b).finish = b.finish := by
  induction opened generalizing b with
  | nil => rfl
  | cons name outer ih =>
    have hhead : b.opened.head? = some name := by rw [h, List.head?_cons]
    have htail : (b.leave name).opened = outer := by rw [opened_leave hhead, h, List.tail_cons]
    rw [List.map_cons, List.foldl_cons, read, ih htail, finish_leave hhead]

/-- Dropping and adding closing markers leaves the finished tree as it was. -/
theorem finish_foldl_read_balance (parts : List Part) (b : Builder) :
    ((Part.balance b.opened parts).foldl read b).finish = (parts.foldl read b).finish := by
  induction parts generalizing b with
  | nil => exact finish_closers rfl
  | cons p parts ih =>
    have hkept : ∀ b' : Builder, b' = b.read p → b'.opened = b.opened →
        ((p :: Part.balance b.opened parts).foldl read b).finish =
          ((p :: parts).foldl read b).finish := by
      rintro b' rfl hopened
      rw [List.foldl_cons, List.foldl_cons, ← hopened, ih]
    cases p with
    | text s => exact hkept _ rfl (opened_add ..)
    | isolation mark => exact hkept _ rfl rfl
    | expression e => exact hkept _ rfl (opened_add ..)
    | markup kind name options =>
      cases kind with
      | opening => exact ih (b.enter name options)
      | standalone => exact hkept _ rfl (opened_add ..)
      | closing =>
        simp only [Part.balance, List.foldl_cons, read]
        split
        · next h => rw [List.foldl_cons, read, ← opened_leave h, ih]
        · next h => rw [leave_of_opened h, ih]

/-! ### Forests -/

theorem foldl_add_of_frames (nodes children : List Node) (frame : Frame) (outer : List Frame)
    (more : List Node) :
    more.foldl add ⟨nodes, { frame with children } :: outer⟩ =
      ⟨nodes, { frame with children := children ++ more } :: outer⟩ := by
  induction more generalizing children with
  | nil => simp
  | cons node more ih =>
    rw [List.foldl_cons, add]
    dsimp only
    rw [ih, List.append_assoc, List.singleton_append]

theorem foldl_add (nodes more : List Node) :
    more.foldl add ⟨nodes, []⟩ = ⟨nodes ++ more, []⟩ := by
  induction more generalizing nodes with
  | nil => simp
  | cons node more ih =>
    rw [List.foldl_cons, add]
    dsimp only
    rw [ih, List.append_assoc, List.singleton_append]

mutual

/-- Reading the parts of a tree adds its node. -/
theorem foldl_read_parts (t : Nested) (b : Builder) : t.parts.foldl read b = b.add t.node := by
  cases t with
  | text s => rfl
  | expression e => rfl
  | markup name options closing children =>
    have hchildren := foldl_read_partsAll children (b.enter name options)
    rw [Nested.parts, List.foldl_cons, List.foldl_append, read, hchildren, enter]
    rw [foldl_add_of_frames b.nodes [] ⟨name, options, []⟩ b.frames]
    simp [read, leave, Frame.close, Nested.node]

theorem foldl_read_partsAll (ts : List Nested) (b : Builder) :
    (Nested.partsAll ts).foldl read b = (Nested.nodes ts).foldl add b := by
  cases ts with
  | nil => rfl
  | cons t rest =>
    rw [Nested.partsAll, List.foldl_append, foldl_read_parts t b, foldl_read_partsAll rest]
    rfl

end

end Builder

/-- The parts of a forest give the forest back. -/
theorem ofParts_partsAll (forest : List Nested) :
    ofParts (Nested.partsAll forest) = Nested.nodes forest := by
  rw [ofParts, Builder.foldl_read_partsAll, Builder.foldl_add, Builder.finish, Builder.closeAll,
    List.nil_append]

/-- Parts have the tree of their normal form. -/
theorem ofParts_normalize (parts : List Part) : ofParts (Part.normalize parts) = ofParts parts := by
  have hbalance := Builder.finish_foldl_read_balance (parts.flatMap Part.expand) {}
  rw [Builder.foldl_read_flatMap_expand] at hbalance
  exact hbalance

/-- Rebuilding a tree undoes taking a forest to its parts, and takes any parts to what their
normal form, which is the parts of some forest, stands for. -/
theorem ofParts_partsAll_and_normalize :
    (∀ forest, ofParts (Nested.partsAll forest) = Nested.nodes forest) ∧
      ∀ parts, (∃ forest, Part.normalize parts = Nested.partsAll forest) ∧
        ofParts parts = ofParts (Part.normalize parts) :=
  ⟨ofParts_partsAll, fun parts =>
    ⟨Part.exists_normalize_eq_partsAll parts, (ofParts_normalize parts).symm⟩⟩

end Node

end Phrasebook
