import Crosswalk.Command.Run

/-!
The command: reads the record definition, writes the program to its file or prints it, and exits.
-/

namespace Crosswalk.Command

/-- The number of an error of the system. It may come as a negative one in 32 bits. -/
def errorNumber (code : UInt32) : Nat :=
  if code.toNat < 0x80000000 then code.toNat else 0x100000000 - code.toNat

/-- The cause of an error of the system, if it is one that files have. -/
def fileError? : IO.Error → Option FileError
  | .noFileOrDirectory _ code _ | .inappropriateType _ code _ | .permissionDenied _ code _
  | .invalidArgument _ code _ => FileError.ofCode? (errorNumber code)
  | _ => none

/-- The text of a file, or why it cannot be read. -/
def readText (file : String) : IO (Except String String) := do
  match ← (IO.FS.readFile file).toBaseIO with
  | .ok s => pure (.ok s)
  | .error e => pure (.error ((fileError? e).elim (toString e) unreadable))

/-- Writes the file of an outcome; says why it could not. -/
def writeText : Option (String × String) → IO (Option String)
  | none => pure none
  | some (file, s) => do
    match ← (IO.FS.writeFile file s).toBaseIO with
    | .ok () => pure none
    | .error e => pure (some ((fileError? e).elim (toString e) FileError.message))

/-- Runs a command line and prints what comes of it. -/
def execute (args : List String) : IO UInt32 := do
  let text ← match schemaFile? args with
    | some file => readText file
    | none => pure (.ok "")
  let planned := run args (fun _ => text) (fun _ => none)
  let refusal ← writeText planned.written
  let outcome := run args (fun _ => text) (fun _ => refusal)
  IO.eprint outcome.stderr
  IO.print outcome.stdout
  pure (UInt32.ofNat outcome.status)

end Crosswalk.Command

/-- The entry point of the command. -/
def main (args : List String) : IO UInt32 := Crosswalk.Command.execute args
