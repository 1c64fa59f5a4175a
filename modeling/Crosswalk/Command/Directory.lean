import Crosswalk.SortedMap
import Crosswalk.Text.Split

/-!
The directory in which the command runs: what a file name leads to there, and why a file cannot be
read or written. The directory holds files alone, and every other directory is taken to be empty.
-/

namespace Crosswalk.Command

/-- Why a file cannot be read or written. -/
inductive FileError where
  /-- Nothing has the name. -/
  | missing
  | notPermitted
  /-- The name goes on after a file. -/
  | notDirectory
  | isDirectory
  | nameTooLong
  deriving DecidableEq, Repr

namespace FileError

/-- The number by which the system knows an error. -/
def code : FileError → Nat
  | missing => 2
  | notPermitted => 13
  | notDirectory => 20
  | isDirectory => 21
  | nameTooLong => 36

/-- The error with a given number. -/
def ofCode? (n : Nat) : Option FileError :=
  [missing, notPermitted, notDirectory, isDirectory, nameTooLong].find? fun e => e.code == n

/-- What the system says about an error. -/
def message (e : FileError) : String :=
  let text := match e with
    | missing => "No such file or directory"
    | notPermitted => "Permission denied"
    | notDirectory => "Not a directory"
    | isDirectory => "Is a directory"
    | nameTooLong => "File name too long"
  text ++ " (os error " ++ toString e.code ++ ")"

end FileError

/-- What a file name leads to. -/
inductive Target where
  /-- A directory: the one in which the command runs, or another. -/
  | directory (here : Bool)
  /-- A place in a directory, with the text of the file there, if there is one. -/
  | place (here : Bool) (name : String) (text : Option String)
  deriving DecidableEq, Repr

/-- A directory that holds files alone. -/
structure Directory where
  /-- The texts of the files by their names. -/
  files : SortedMap String String := .empty
  deriving DecidableEq, Repr

namespace Directory

/-- A step of a file name has at most this many bytes. -/
def maxStep : Nat := 255

/-- A file name has at most this many bytes. -/
def maxName : Nat := 4095

/-- The file that has no text and keeps none. -/
def nullFile : String := "/dev/null"

/-- The steps of a file name. -/
def steps (file : String) : List String :=
  ((Text.pieces '/' file.toList).map String.ofList).filter fun step => !step.isEmpty

/-- Where one step leads from a directory. -/
def step (d : Directory) (here : Bool) (name : String) : Except FileError Target :=
  if name = "." then .ok (.directory here)
  else if name = ".." then .ok (.directory false)
  else if name.utf8ByteSize > maxStep then .error .nameTooLong
  else .ok (.place here name (if here then d.files.find? name else none))

/-- Where some steps lead. They go on from directories only. -/
def walk (d : Directory) : Target → List String → Except FileError Target
  | t, [] => .ok t
  | .directory here, name :: rest => do d.walk (← d.step here name) rest
  | .place _ _ text, _ :: _ => .error (if text.isSome then .notDirectory else .missing)

/-- Where a file name leads by some of its steps. -/
def resolve (d : Directory) (file : String) (names : List String) : Except FileError Target :=
  if file.isEmpty then .error .missing
  else if file.utf8ByteSize > maxName then .error .nameTooLong
  else d.walk (.directory (!file.startsWith "/")) names

/-- The text of a file. A name that ends with `/` is that of a directory. -/
def read (d : Directory) (file : String) : Except FileError String :=
  if file = nullFile then .ok ""
  else do
    match ← d.resolve file (steps file) with
    | .directory _ => .error .isDirectory
    | .place _ _ none => .error .missing
    | .place _ _ (some text) => if file.endsWith "/" then .error .notDirectory else .ok text

/-- The directory with a text in a file. No file is made of a name that ends with `/`. -/
def write (d : Directory) (file text : String) : Except FileError Directory :=
  if file = nullFile then .ok d
  else if file.endsWith "/" then do
    match ← d.resolve file (steps file).dropLast with
    | .directory _ => .error .isDirectory
    | .place _ _ found => .error (if found.isSome then .notDirectory else .missing)
  else do
    match ← d.resolve file (steps file) with
    | .directory _ => .error .isDirectory
    | .place here name _ => .ok (if here then ⟨d.files.insert name text⟩ else d)

end Directory

end Crosswalk.Command
