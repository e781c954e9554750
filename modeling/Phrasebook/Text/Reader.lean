/-!
Readers: recognisers of text formats that either hold or do not.

A `Reader` takes characters from the front of a text and gives a result, or fails without a
reason. It serves the formats whose errors are not reported in detail: dates, JSON and TOML.
`Reader.many` repeats a step for as long as it reads something.
-/

namespace Phrasebook

/-- A reader from the front of a text. -/
abbrev Reader := StateT (List Char) Option

namespace Reader

variable {α : Type}

def fail : Reader α := fun _ => none

/-- The next character, which stays. -/
def peek : Reader (Option Char) := do return (← get).head?

def next : Reader Char := fun
  | [] => none
  | c :: rest => some (c, rest)

/-- Takes the next character, which has to be in a class. -/
def satisfy (p : Char → Bool) : Reader Char := do
  let c ← next
  if p c then return c else fail

def char (c : Char) : Reader Unit := do let _ ← satisfy (· == c)

def takeWhile (p : Char → Bool) : Reader (List Char) := fun cs =>
  some (cs.takeWhile p, cs.dropWhile p)

/-- Takes the given characters, if they come next. -/
def optional (expected : List Char) : Reader Bool := fun cs =>
  if expected.isPrefixOf cs then some (true, cs.drop expected.length) else some (false, cs)

def exactly (expected : List Char) : Reader Unit := do
  if !(← optional expected) then fail

/-- Takes as many digits as there are, up to a bound, and at least so many. -/
def digits (least most : Nat) : Reader (List Char) := fun cs =>
  let found := (cs.take most).takeWhile Char.isDigit
  if found.length < least then none else some (found, cs.drop found.length)

def atEnd : Reader Unit := fun
  | [] => some ((), [])
  | _ :: _ => none

/-- All that a step reads, one after the other, until it gives nothing. A step that takes
nothing is the last one. -/
def many (step : Reader (Option α)) (cs : List Char) : Option (List α × List Char) :=
  match step cs with
  | none => none
  | some (none, rest) => some ([], rest)
  | some (some a, rest) =>
    if rest.length < cs.length then
      match many step rest with
      | some (others, after) => some (a :: others, after)
      | none => none
    else some ([a], rest)
termination_by cs.length

def run? (reader : Reader α) (cs : List Char) : Option α :=
  match (do let a ← reader; atEnd; return a : Reader α) cs with
  | some (a, _) => some a
  | none => none

end Reader

end Phrasebook
