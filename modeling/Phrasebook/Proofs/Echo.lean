import Phrasebook.Function.Basic
import Phrasebook.Proofs.Tiling

/-!
The echo of a placeholder reads back.

A placeholder without a value shows its source in braces: its operand, or the name of its function
where it has no operand. The source of an operand or of a function is one of its written forms, so
the echo is a written form of the expression without what the source leaves out
(`Expression.echoWritten`), whatever characters its literal has. Main statement:
`Message.parse_echo`.
-/

namespace Phrasebook

/-! ## Sources -/

/-- Escaping is a written form between bars. -/
theorem Operand.escaped_escape (cs : List Char) : Escaped PlainInBars cs (escape cs) := by
  induction cs with
  | nil => exact .nil
  | cons c cs ih =>
    rw [escape]
    split
    · next h =>
      have hescapable : isEscapable c = true := by
        simp only [Bool.or_eq_true, beq_iff_eq] at h
        rcases h with rfl | rfl <;> rfl
      exact .escaped hescapable ih
    · next h =>
      have hplain : PlainInBars c := by simpa [PlainInBars] using h
      exact .plain hplain ih

/-- The source of an operand is one of its written forms. -/
theorem Operand.written_source (start : Char → Bool) (o : Operand) :
    OperandWritten start o o.source.toList := by
  cases o with
  | «variable» name =>
    have hsource : (Operand.variable name).source.toList = '$' :: name.toList := by simp [source]
    rw [hsource]
    exact .sigil
  | literal text =>
    have hsource : (Operand.literal text).source.toList =
        '|' :: (escape text.toList ++ ['|']) := by simp [source]
    rw [hsource]
    exact .literal (.bars (escaped_escape text.toList))

/-- The expression without what its source leaves out: the function of an operand, and all options
and attributes. -/
def Expression.echoed (e : Expression) : Expression where
  operand := e.operand
  function := if e.operand.isSome then none else e.function.map fun f => ⟨f.name, []⟩
  span := .nowhere

namespace Expression

variable {e : Expression}

theorem source_echoed (e : Expression) : e.echoed.source = e.source := by
  obtain ⟨operand, function, span⟩ := e
  cases operand <;> cases function <;> rfl

theorem WellFormed.echoed (h : e.WellFormed) : e.echoed.WellFormed := by
  obtain ⟨operand, function, span⟩ := e
  cases operand with
  | some o => exact ⟨h.operand, fun f hf => (by cases hf), .inl rfl⟩
  | none =>
    refine ⟨h.operand, fun f hf => ?_, .inr ?_⟩
    · obtain ⟨g, hg, rfl⟩ := Option.map_eq_some_iff.mp hf
      exact ⟨(h.function g hg).name, by simp, by simp, by simp⟩
    · simpa [Expression.echoed] using h.nonempty

/-- The source names what the expression is echoed as. -/
theorem WellFormed.callWritten_source (h : e.WellFormed) :
    CallWritten e.echoed.operand e.echoed.function e.source.toList := by
  obtain ⟨operand, function, span⟩ := e
  cases operand with
  | some o => exact .operand (o.written_source isLiteralStart)
  | none =>
    cases function with
    | none => rcases h.nonempty with h | h <;> cases h
    | some f =>
      have hwritten := FunctionWritten.mk (f := ⟨f.name, []⟩) .nil
      have hsource : (Expression.mk none (some f) span).source.toList =
          ':' :: (f.name.toList ++ []) := by simp [source]
      rw [hsource]
      exact .function hwritten

/-- An echo is a written form of what it echoes. -/
theorem WellFormed.echoWritten (h : e.WellFormed) :
    ExpressionWritten e.echoed ("\x7b" ++ e.source ++ "\x7d").toList := by
  have hwritten := ExpressionWritten.mk blanks_nil h.callWritten_source endingWritten_nil
  simpa using hwritten

end Expression

/-! ## Main statement -/

/-- What the parser read can be read again from its echo, which a placeholder without a value shows.
The echo of any expression of a message is a simple message of one expression, with the same operand
and the same source; it has the function only where there is no operand, and no options. -/
theorem Message.parse_echo {source : String} {m : Message} (h : parse source = .ok m)
    {e : Expression} (he : .expression e ∈ m.items) :
    let echo := (Resolved.fallback e.source).text
    echo = "\x7b" ++ e.source ++ "\x7d" ∧ isComplex echo.toList = false ∧
      ∃ e', parse echo = .ok ⟨[], .pattern [.expression e']⟩ ∧ e'.operand = e.operand ∧
        (e.operand.isSome → e'.function = none) ∧
        (e.operand = none → ∃ f, e.function = some f ∧ e'.function = some ⟨f.name, []⟩) ∧
        e'.source = e.source := by
  intro echo
  have hwf : e.WellFormed :=
    (piecesWellFormed_of_scan (of_parse h).1).items _ he
  have hitem : (PatternItem.expression e.echoed).WellFormed := hwf.echoed
  obtain ⟨hsimple, hparse⟩ := parse_of_itemWritten (.expression hwf.echoWritten) hitem id
  rw [String.ofList_toList] at hparse
  refine ⟨rfl, hsimple, _, hparse, rfl, fun hsome => ?_, fun hnone => ?_, e.source_echoed⟩
  · exact if_pos hsome
  · obtain ⟨f, hf⟩ := Option.isSome_iff_exists.mp (hwf.nonempty.resolve_left (by simp [hnone]))
    exact ⟨f, hf, by simp [Expression.echoed, hnone, hf]⟩

/-- A declaration with a literal of escapes, and functions with options and attributes. -/
def echoingSource : String :=
  ".local $a = \x7b|\\|\x7b\\\\\x7d| :f\x7d\x7b\x7b\x7b$a :g o=1 @x\x7d\x7b:n:h o=|z|\x7d\x7d\x7d"

theorem Message.parse_echo_escaped :
    ∃ m, parse echoingSource = .ok m ∧
      m.items.map PatternItem.unplaced =
        [.expression ⟨some (.literal "|\x7b\\\x7d"), some ⟨"f", []⟩, .nowhere⟩,
          .expression ⟨some (.variable "a"), some ⟨"g", [⟨"o", .literal "1"⟩]⟩, .nowhere⟩,
          .expression ⟨none, some ⟨"n:h", [⟨"o", .literal "z"⟩]⟩, .nowhere⟩] ∧
      ∀ e, .expression e ∈ m.items →
        let echo := (Resolved.fallback e.source).text
        echo = "\x7b" ++ e.source ++ "\x7d" ∧ isComplex echo.toList = false ∧
          ∃ e', parse echo = .ok ⟨[], .pattern [.expression e']⟩ ∧ e'.operand = e.operand ∧
            (e.operand.isSome → e'.function = none) ∧
            (e.operand = none → ∃ f, e.function = some f ∧ e'.function = some ⟨f.name, []⟩) ∧
            e'.source = e.source := by
  have hitems : (parse echoingSource).toOption.map (·.items.map PatternItem.unplaced) = some
      [.expression ⟨some (.literal "|\x7b\\\x7d"), some ⟨"f", []⟩, .nowhere⟩,
        .expression ⟨some (.variable "a"), some ⟨"g", [⟨"o", .literal "1"⟩]⟩, .nowhere⟩,
        .expression ⟨none, some ⟨"n:h", [⟨"o", .literal "z"⟩]⟩, .nowhere⟩] := by decide +kernel
  obtain ⟨m, hm, hunplaced⟩ := Option.map_eq_some_iff.mp hitems
  have hparse := Outcome.eq_ok_of_toOption hm
  exact ⟨m, hparse, hunplaced, fun e he => parse_echo hparse he⟩

end Phrasebook
