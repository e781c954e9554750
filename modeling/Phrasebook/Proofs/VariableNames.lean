import Phrasebook.Proofs.Echo
import Phrasebook.Proofs.Overrides
import Phrasebook.Proofs.Skeleton
import Phrasebook.Proofs.Timestamps
import Phrasebook.Proofs.TreeText

/-!
The names that variables go by in trees.

The node of a placeholder goes by a word of its source: what follows the sigil as far as it
consists of letters, digits and underscores of ASCII, or else the first such word. Names may have
other characters, so a variable goes by its own name, and has a slot of its own, exactly if the
name is a word. The placeholders of a message stand in its tree in their order, each by the name
that its source gives it (`Formatter.names_ofParts`). Main statement: `Formatter.own_slot`.
-/

namespace Phrasebook

/-! ## Words -/

/-- Letters, digits and underscores of ASCII only. -/
def IsWord (s : String) : Prop := ∀ c ∈ s.toList, Node.isWordChar c = true

namespace Node

theorem isSpace_of_isWordChar {c : Char} (h : isWordChar c = true) : Text.isSpace c = false := by
  unfold isWordChar Char.isAlphanum Char.isAlpha Char.isUpper Char.isLower Char.isDigit at h
  simp only [Bool.or_eq_true, Bool.and_eq_true, decide_eq_true_eq, beq_iff_eq, ge_iff_le,
    Char.ext_iff, UInt32.le_iff_toNat_le, UInt32.toNat_inj.symm] at h
  simp only [Text.isSpace, Bool.or_eq_false_iff, Bool.and_eq_false_iff, beq_eq_false_iff_ne, ne_eq,
    decide_eq_false_iff_not, Char.le_def, UInt32.le_iff_toNat_le, Char.ext_iff,
    UInt32.toNat_inj.symm, Char.reduceVal, UInt32.reduceToNat] at h ⊢
  omega

theorem isWord_takeWhile (cs : List Char) : IsWord (String.ofList (cs.takeWhile isWordChar)) := by
  rw [IsWord, String.toList_ofList]
  exact fun _ => List.mem_takeWhile_imp

theorem trimChars_isInfix (cs : List Char) : Text.trimChars cs <:+: cs := by
  have hstart : Text.trimStart cs <:+ cs := List.dropWhile_suffix _
  have hstop : Text.trimChars cs <+: Text.trimStart cs := by
    rw [Text.trimChars, ← List.reverse_suffix, List.reverse_reverse]
    exact List.dropWhile_suffix _
  exact hstop.isInfix.trans hstart.isInfix

theorem isWordChar_of_isAlpha {c : Char} (h : (c.isAlpha || c == '_') = true) :
    isWordChar c = true := by
  rw [Bool.or_eq_true] at h
  rw [isWordChar, Char.isAlphanum, Bool.or_eq_true, Bool.or_eq_true]
  exact h.imp_left Or.inl

/-- The first word is what is left after some characters begins with, and it is not empty. -/
theorem exists_of_firstWord? {cs : List Char} {name : String} (h : firstWord? cs = some name) :
    ∃ rest, rest <:+: cs ∧ rest.takeWhile isWordChar ≠ [] ∧
      name = String.ofList (rest.takeWhile isWordChar) := by
  have hsuffix := List.dropWhile_suffix (l := cs) fun c : Char => !(c.isAlpha || c == '_')
  have hhead := List.head?_dropWhile_not (fun c : Char => !(c.isAlpha || c == '_')) cs
  rw [firstWord?] at h
  cases hfirst : cs.dropWhile fun c => !(c.isAlpha || c == '_') with
  | nil =>
    rw [hfirst] at h
    cases h
  | cons c rest =>
    rw [hfirst] at h hhead hsuffix
    have hc : isWordChar c = true := isWordChar_of_isAlpha
      (by simpa only [List.head?_cons, Bool.not_eq_eq_eq_not, Bool.not_false] using hhead)
    cases h
    exact ⟨c :: rest, hsuffix.isInfix, by simp [hc], rfl⟩

/-- A placeholder goes by a word of its source, and not by the empty word. -/
theorem exists_of_variableName? {source name : String} (h : variableName? source = some name) :
    ∃ rest, rest <:+: source.toList ∧ rest.takeWhile isWordChar ≠ [] ∧
      name = String.ofList (rest.takeWhile isWordChar) := by
  unfold variableName? at h
  extract_lets cs word at h
  have hcs : cs <:+: source.toList := trimChars_isInfix _
  clear_value cs
  split at h
  · obtain ⟨rest, hrest, hname⟩ := exists_of_firstWord? h
    exact ⟨rest, hrest.trans hcs, hname⟩
  · next hne =>
    cases h
    unfold word at hne ⊢
    split at hne
    · next rest =>
      exact ⟨rest, (List.suffix_cons _ _).isInfix.trans hcs, by simpa using hne, rfl⟩
    · exact absurd rfl hne

theorem isWord_of_variableName? {source name : String} (h : variableName? source = some name) :
    IsWord name := by
  obtain ⟨rest, -, -, rfl⟩ := exists_of_variableName? h
  exact isWord_takeWhile rest

/-- A variable goes by a word of its name, which is shorter than the name if that is no word. -/
theorem word_of_variableName? {n w : String} (hn : ¬ IsWord n)
    (h : variableName? ("$" ++ n) = some w) :
    IsWord w ∧ w ≠ "" ∧ w.toList <:+: n.toList ∧ w.length < n.length := by
  have hword := isWord_of_variableName? h
  obtain ⟨rest, hrest, hne, rfl⟩ := exists_of_variableName? h
  have hstretch : (String.ofList (rest.takeWhile isWordChar)).toList <:+: n.toList := by
    have hsource : rest.takeWhile isWordChar <:+: '$' :: n.toList := by
      simpa using (List.takeWhile_prefix _).isInfix.trans hrest
    rw [String.toList_ofList]
    rcases List.infix_cons_iff.mp hsource with hfirst | hlater
    · -- no word begins with the sigil
      obtain ⟨c, cs, hcs⟩ := List.exists_cons_of_ne_nil hne
      rw [hcs] at hfirst
      obtain ⟨rfl, -⟩ := List.cons_prefix_cons.mp hfirst
      have hsigil : isWordChar '$' = true :=
        List.mem_takeWhile_imp (hcs ▸ List.mem_cons_self : '$' ∈ rest.takeWhile isWordChar)
      cases hsigil
    · exact hlater
  refine ⟨hword, by simpa using hne, hstretch, ?_⟩
  rw [← String.length_toList, ← String.length_toList]
  refine Nat.lt_of_le_of_ne hstretch.length_le fun heq => hn ?_
  rwa [String.toList_inj.mp (hstretch.eq_of_length heq)] at hword

/-- A word after a sigil is taken as it is. -/
theorem variableName?_of_isWord {n : String} (hn : IsWord n) (hne : n ≠ "") :
    variableName? ("$" ++ n) = some n := by
  have hspace : ∀ c ∈ ("$" ++ n).toList, Text.isSpace c = false := by
    intro c hc
    rcases List.mem_cons.mp (by simpa using hc) with rfl | hc
    · decide
    · exact isSpace_of_isWordChar (hn c hc)
  have htrim : Text.trimChars ("$" ++ n).toList = '$' :: n.toList := by
    have h := congrArg String.toList (Text.trim_of_forall hspace)
    simpa [Text.trim] using h
  have hword : n.toList.takeWhile isWordChar = n.toList := List.takeWhile_eq_self_iff.mpr hn
  simp only [variableName?, htrim, hword]
  simp [hne]

end Node

/-! ## Variables -/

namespace Message

/-- The source of the message that shows a variable. -/
def ofVariable (n : String) : String := "\x7b$" ++ n ++ "\x7d"

/-- The parser reads the text as the name of a variable, from end to end. -/
def Accepts (n : String) : Prop :=
  ∃ span, parse (ofVariable n) =
    .ok ⟨[], .pattern [.expression ⟨some (.variable n), none, span⟩]⟩

/-- The names of variables are the names of the grammar. -/
theorem accepts_iff (n : String) : Accepts n ↔ IsName n := by
  constructor
  · rintro ⟨span, h⟩
    have hitems : PatternWellFormed _ := (wellFormed_of_parse h).body
    have hexpression : Expression.WellFormed _ := hitems.items _ List.mem_cons_self
    exact hexpression.operand _ rfl
  · intro hn
    have hwf : (Expression.bare n).WellFormed := (Formatter.wellFormed_bareInput hn).expression
    obtain ⟨-, h⟩ := parse_of_itemWritten (.expression hwf.echoWritten) hwf id
    have hsource : ofVariable n = "\x7b" ++ (Expression.bare n).source ++ "\x7d" := by
      simp [ofVariable, Expression.bare, Expression.source, Operand.source, ← String.toList_inj]
    rw [String.ofList_toList, ← hsource] at h
    exact ⟨_, h⟩

theorem Accepts.ne_empty {n : String} (h : Accepts n) : n ≠ "" := by
  obtain ⟨c, cs, hn, -⟩ := (accepts_iff n).mp h
  rintro rfl
  cases hn

end Message

/-! ## Names in trees -/

/-- The name that the node of a placeholder goes by, if it has one. -/
def Node.goesBy? : Node → Option (Option String)
  | .variable name _ _ => some name
  | _ => none

/-- The name that a placeholder gives its node, if it gives one. -/
def PatternItem.goesBy? : PatternItem → Option (Option String)
  | .expression e => some (Node.variableName? e.source)
  | _ => none

namespace Node

theorem ofPart?_erase (p : Part) :
    ((ofPart? p.erase).bind goesBy?) = (ofPart? p).bind goesBy? := by
  cases p <;> rfl

theorem filterMap_outline (isolates : Bool) (p : Pattern) :
    (p.flatMap (·.outline isolates)).filterMap (fun q => (ofPart? q).bind goesBy?) =
      p.filterMap PatternItem.goesBy? := by
  induction p with
  | nil => rfl
  | cons item p ih =>
    rw [List.flatMap_cons, List.filterMap_append, ih]
    cases item with
    | text s => rfl
    | markup m => rfl
    | expression e => cases isolates <;> rfl

/-- The tree of a placeholder, with or without marks of direction around it. -/
theorem ofParts_itemParts (f : Formatter) (source : String) (value : Resolved) :
    ofParts (f.itemParts (.expression source value)) =
      [ofExpression (f.expressionPart source value)] := by
  cases h : f.isolates <;>
    simp [Formatter.itemParts, h, ofParts, Builder.finish, Builder.closeAll, Builder.read,
      Builder.add]

/-- A variable is what the slot under its name makes of it. -/
theorem renderAll_variable {slots : Slots} {name : String} {slot : Slot}
    (h : slots.find? name = some slot) (markups : MarkupTable) (value : Option Value)
    (shown : String) :
    renderAll slots markups [.variable (some name) value shown] =
      (slot { name := name, value := value.getD .null }).map View.spliced := by
  simp only [renderAll, render, Option.bind_some, h, Option.map_some]
  cases slot { name := name, value := value.getD .null } <;>
    simp [bind, Except.bind, pure, Except.pure, Except.map]

end Node

namespace Formatter

/-- The variables in the tree of a message go by the names that the placeholders shown give them, in
their order. -/
theorem names_ofParts {f : Formatter} {arguments : Arguments} {parts : List Part}
    (h : f.formatToParts arguments = .ok parts) :
    ∃ p, f.shownPattern arguments = .ok p ∧
      (Node.leavesAll (Node.ofParts parts)).filterMap Node.goesBy? =
        p.filterMap PatternItem.goesBy? := by
  obtain ⟨p, hp, herased⟩ := f.erase_formatToParts h
  refine ⟨p, hp, ?_⟩
  calc (Node.leavesAll (Node.ofParts parts)).filterMap Node.goesBy?
      = parts.filterMap fun q => (Node.ofPart? q).bind Node.goesBy? := by
        rw [Node.leavesAll_ofParts, List.filterMap_filterMap]
    _ = (parts.map Part.erase).filterMap fun q => (Node.ofPart? q).bind Node.goesBy? := by
        rw [List.filterMap_map]
        exact congrArg (List.filterMap · parts) (funext fun q => (Node.ofPart?_erase q).symm)
    _ = p.filterMap PatternItem.goesBy? := by rw [herased, Node.filterMap_outline]

/-- A message of one variable shows what the variable gives. -/
theorem formatToParts_ofVariable {f : Formatter} {n : String} {span : Span}
    (hf : f.message = ⟨[], .pattern [.expression ⟨some (.variable n), none, span⟩]⟩)
    (arguments : Arguments) :
    f.formatToParts arguments = (f.evaluate { arguments } (.bare n)).map fun value =>
      f.itemParts (.expression ("$" ++ n) value) := by
  let item : PatternItem := .expression ⟨some (.variable n), none, span⟩
  have hitem : f.resolveItem { arguments } item =
      (f.evaluate { arguments } (.bare n)).map (.expression ("$" ++ n)) := rfl
  have hresolve : f.resolve arguments = [item].mapM (f.resolveItem { arguments }) := by
    rw [resolve, hf]
    rfl
  rw [formatToParts, hresolve, List.mapM_cons, List.mapM_nil, hitem]
  cases f.evaluate { arguments } (.bare n) <;>
    simp [bind, Except.bind, pure, Except.pure, Except.map]

/-- A variable that the parser reads can be shown, and has the tree to itself. -/
theorem exists_ofVariable {n : String} (hn : Message.Accepts n) (locale : String)
    (functions : FunctionTable) (localizer : Localizer) (isolates : Bool) :
    ∃ f, compile locale (Message.ofVariable n) functions localizer isolates = .ok f ∧
      ∀ arguments,
        (functions = .builtins → ∃ parts, f.formatToParts arguments = .ok parts) ∧
        ∀ parts, f.formatToParts arguments = .ok parts → ∃ value shown,
          Node.ofParts parts = [.variable (Node.variableName? ("$" ++ n)) value shown] := by
  obtain ⟨span, hparse⟩ := hn
  obtain ⟨f, hf, hmessage, hfunctions⟩ : ∃ f : Formatter,
      compile locale (Message.ofVariable n) functions localizer isolates = .ok f ∧
        f.message = ⟨[], .pattern [.expression ⟨some (.variable n), none, span⟩]⟩ ∧
        f.functions = functions := ⟨_, compile_of_parse hparse, rfl, rfl⟩
  refine ⟨f, hf, fun arguments => ?_⟩
  rw [formatToParts_ofVariable hmessage]
  refine ⟨fun hbuiltins => ?_, fun parts hparts => ?_⟩
  · obtain ⟨value, hvalue, -⟩ :=
      exists_readsLike_insert (s := { arguments }) (hfunctions.trans hbuiltins) (x := n) rfl
    rw [hvalue]
    exact ⟨_, rfl⟩
  · obtain ⟨value, -, rfl⟩ := Outcome.map_eq_ok hparts
    exact ⟨_, _, Node.ofParts_itemParts f _ value⟩

/-- Which variables have slots of their own. The placeholder of a variable goes by the variable's
name exactly if the name is a word, and else by a shorter word of the name or by none. A slot under
the name is what it calls if the name is a word, and else is never called for it. In a tree no two
variables that are words are taken for each other. -/
theorem own_slot {n : String} (hn : Message.Accepts n) :
    (∀ locale functions localizer isolates, ∃ f,
      compile locale (Message.ofVariable n) functions localizer isolates = .ok f ∧
      ∀ arguments,
        (functions = .builtins → ∃ parts, f.formatToParts arguments = .ok parts) ∧
        ∀ parts, f.formatToParts arguments = .ok parts →
          ∃ name value shown, Node.ofParts parts = [.variable name value shown] ∧
            (name = some n ↔ IsWord n) ∧
            (¬ IsWord n → ∀ w, name = some w →
              IsWord w ∧ w ≠ "" ∧ w.toList <:+: n.toList ∧ w.length < n.length) ∧
            (IsWord n → ∀ slots markups slot, slots.find? n = some slot →
              Node.renderAll slots markups (Node.ofParts parts) =
                (slot { name := n, value := value.getD .null }).map View.spliced) ∧
            (¬ IsWord n → ∀ slots slots' markups, Table.AgreeOff n slots slots' →
              Node.renderAll slots' markups (Node.ofParts parts) =
                Node.renderAll slots markups (Node.ofParts parts))) ∧
    (IsWord n → ∀ (g : Formatter) arguments parts, g.formatToParts arguments = .ok parts →
      ∃ p, g.shownPattern arguments = .ok p ∧
        (Node.leavesAll (Node.ofParts parts)).filterMap Node.goesBy? =
          p.filterMap PatternItem.goesBy? ∧
        ∀ (e : Expression) m, e.operand = some (.variable m) → Message.Accepts m → IsWord m →
          ((PatternItem.expression e).goesBy? = some (some n) ↔ m = n)) := by
  have hiff : Node.variableName? ("$" ++ n) = some n ↔ IsWord n :=
    ⟨Node.isWord_of_variableName?, fun h => Node.variableName?_of_isWord h hn.ne_empty⟩
  constructor
  · intro locale functions localizer isolates
    obtain ⟨f, hf, hshown⟩ := exists_ofVariable hn locale functions localizer isolates
    refine ⟨f, hf, fun arguments => ⟨(hshown arguments).1, fun parts hparts => ?_⟩⟩
    obtain ⟨value, shown, htree⟩ := (hshown arguments).2 parts hparts
    refine ⟨_, value, shown, htree, hiff, fun hword w hw => Node.word_of_variableName? hword hw,
      fun hword slots markups slot hslot => ?_, fun hword slots slots' markups hagree => ?_⟩
    · rw [htree, hiff.mpr hword]
      exact Node.renderAll_variable hslot markups value shown
    · have hfree : n ∉ Node.slotNamesAll (Node.ofParts parts) := by
        rw [htree]
        simpa [Node.slotNamesAll, Node.slotNames] using mt hiff.mp hword
      exact Node.renderAll_of_agreeOff_slots hagree hfree
  · intro hword g arguments parts hparts
    obtain ⟨p, hp, hnames⟩ := names_ofParts hparts
    refine ⟨p, hp, hnames, fun e m he hm hmword => ?_⟩
    have hsource : e.source = "$" ++ m := by simp [Expression.source, he, Operand.source]
    rw [PatternItem.goesBy?, hsource, Node.variableName?_of_isWord hmword hm.ne_empty]
    simp

/-- A slot that shows the name it is called by. -/
def namingSlots (name : String) : Slots :=
  [(name, fun props => .ok (.element "b" [] [.text props.name]))]

/-- A name with a digit and an underscore has a slot of its own. -/
theorem own_slot_underscore :
    ∃ f parts value shown,
      compile "en" (Message.ofVariable "user_2") .builtins .basic true = .ok f ∧
        f.formatToParts [("user_2", .string "Ada")] = .ok parts ∧
        Node.ofParts parts = [.variable (some "user_2") value shown] ∧
        Node.renderAll (namingSlots "user_2") .builtins (Node.ofParts parts) =
          .ok [.element "b" [] [.text "user_2"]] ∧
        ∃ p, f.shownPattern [("user_2", .string "Ada")] = .ok p ∧
          p.filterMap PatternItem.goesBy? = [some "user_2"] := by
  have hname : IsName "user_2" :=
    ⟨'u', "ser_2".toList, rfl, rfl, List.all_eq_true.mp (by decide)⟩
  have hword : IsWord "user_2" := List.all_eq_true.mp (by decide)
  obtain ⟨halone, hamong⟩ := own_slot ((Message.accepts_iff "user_2").mpr hname)
  obtain ⟨f, hf, hshown⟩ := halone "en" .builtins .basic true
  obtain ⟨parts, hparts⟩ := (hshown [("user_2", .string "Ada")]).1 rfl
  obtain ⟨name, value, shown, htree, hiff, -, hslot, -⟩ := (hshown _).2 parts hparts
  obtain rfl := hiff.mpr hword
  obtain ⟨p, hp, hnames, -⟩ := hamong hword f _ parts hparts
  refine ⟨f, parts, value, shown, hf, hparts, htree, ?_, p, hp, ?_⟩
  · exact hslot hword (namingSlots "user_2") .builtins _ rfl
  · rw [← hnames, htree]
    rfl

/-- A hyphen may stand in a name and in no word: two variables go by the same name, which is the
name of neither, and a slot under the name of one of them is not called for it. -/
theorem hyphen_has_no_slot :
    (Message.Accepts "user-name" ∧ Message.Accepts "user-id") ∧
      ∃ f g parts parts' value value' shown shown',
        compile "en" (Message.ofVariable "user-name") .builtins .basic true = .ok f ∧
          compile "en" (Message.ofVariable "user-id") .builtins .basic true = .ok g ∧
          f.formatToParts [] = .ok parts ∧ g.formatToParts [] = .ok parts' ∧
          Node.ofParts parts = [.variable (some "user") value shown] ∧
          Node.ofParts parts' = [.variable (some "user") value' shown'] ∧
          Node.renderAll (namingSlots "user-name") .builtins (Node.ofParts parts) =
            .ok [.text shown] := by
  have hname : Message.Accepts "user-name" := (Message.accepts_iff _).mpr
    ⟨'u', "ser-name".toList, rfl, rfl, List.all_eq_true.mp (by decide)⟩
  have hid : Message.Accepts "user-id" := (Message.accepts_iff _).mpr
    ⟨'u', "ser-id".toList, rfl, rfl, List.all_eq_true.mp (by decide)⟩
  obtain ⟨f, hf, hfirst⟩ := exists_ofVariable hname "en" .builtins .basic true
  obtain ⟨g, hg, hsecond⟩ := exists_ofVariable hid "en" .builtins .basic true
  obtain ⟨parts, hparts⟩ := (hfirst []).1 rfl
  obtain ⟨parts', hparts'⟩ := (hsecond []).1 rfl
  obtain ⟨value, shown, htree⟩ := (hfirst []).2 parts hparts
  obtain ⟨value', shown', htree'⟩ := (hsecond []).2 parts' hparts'
  have huser : Node.variableName? ("$" ++ "user-name") = some "user" := by decide
  have huser' : Node.variableName? ("$" ++ "user-id") = some "user" := by decide
  rw [huser] at htree
  rw [huser'] at htree'
  refine ⟨⟨hname, hid⟩, f, g, parts, parts', value, value', shown, shown', hf, hg, hparts, hparts',
    htree, htree', ?_⟩
  rw [htree]
  rfl

end Formatter

end Phrasebook
