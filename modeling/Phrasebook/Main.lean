import Phrasebook.CommandLine

/-!
The program: reads its words, formats a message and prints it.
-/

open Phrasebook

/-- What the file system has at a path. -/
def fileAt (path : String) : IO FileContent := do
  try
    return .text (← IO.FS.readFile path)
  catch
    | .noFileOrDirectory .. => return .missing
    | _ => return .unreadable

/-- Prints the message, or what is wrong, and tells whether it could be printed. -/
def main (words : List String) : IO UInt32 := do
  match Invocation.ofTokens words with
  | .error e =>
    IO.eprintln e.message
    return 1
  | .ok inv =>
    match ← (inv.run fileAt).run with
    | .ok output =>
      IO.println output
      return 0
    | .error e =>
      IO.eprintln ("runtime error: " ++ e.message)
      return 1
