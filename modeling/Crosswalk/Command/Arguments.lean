import Crosswalk.Text.Split

/-!
Command line arguments. Options and free arguments may mix, and `--` ends the options. An option
has a long name and may have a short one; short options may stand together behind one dash, and the
value of an option is the rest of its argument or the next one.
-/

namespace Crosswalk.Command

/-- An option that a command knows. -/
structure OptionSpec where
  long : String
  short : Option Char := none
  takesValue : Bool := false
  repeatable : Bool := false
  deriving DecidableEq, Repr

/-- How an option is named in an argument. -/
inductive OptionName where
  | short (c : Char)
  | long (s : String)
  deriving DecidableEq, Repr

namespace OptionName

/-- The name without its dashes. -/
def text : OptionName → String
  | short c => String.singleton c
  | long s => s

/-- The name that a text behind two dashes is: of one ASCII character, a short one. -/
def ofLong (cs : List Char) : OptionName :=
  match cs with
  | [c] => if c.utf8Size = 1 then short c else long (String.ofList cs)
  | _ => long (String.ofList cs)

end OptionName

/-- Whether an option has a given name. -/
def OptionSpec.hasName (s : OptionSpec) : OptionName → Bool
  | .short c => s.short == some c
  | .long name => s.long == name

/-- Why arguments are refused. Each cause carries a name. -/
inductive UsageError where
  | valueMissing (name : String)
  | unrecognized (name : String)
  | required (name : String)
  | repeated (name : String)
  | unexpectedValue (name : String)
  deriving DecidableEq, Repr

/-- The wording of the error. -/
def UsageError.message : UsageError → String
  | valueMissing name => "Argument to option '" ++ name ++ "' missing"
  | unrecognized name => "Unrecognized option: '" ++ name ++ "'"
  | required name => "Required option '" ++ name ++ "' missing"
  | repeated name => "Option '" ++ name ++ "' given more than once"
  | unexpectedValue name => "Option '" ++ name ++ "' does not take an argument"

/-- An option that was given, by its long name, with its value. -/
structure Given where
  long : String
  value : Option String := none
  deriving DecidableEq, Repr

/-- The options and the free arguments in the order in which they were given. -/
structure Arguments where
  given : List Given := []
  free : List String := []
  deriving DecidableEq, Repr

namespace Arguments

/-- Whether an option was given. -/
def has (a : Arguments) (long : String) : Bool := a.given.any (·.long == long)

/-- The values of an option in the order in which they were given. -/
def valuesOf (a : Arguments) (long : String) : List String :=
  a.given.filterMap fun g => if g.long = long then g.value else none

/-- The arguments with options in front. -/
def withGiven (gs : List Given) (a : Arguments) : Arguments := { a with given := gs ++ a.given }

/-- The arguments with a free one in front. -/
def withFree (s : String) (a : Arguments) : Arguments := { a with free := s :: a.free }

end Arguments

/-- What one argument says: the options in it, and the option that takes the next argument. -/
structure Reading where
  given : List Given := []
  pending : Option (OptionSpec × OptionName) := none

/-- The option with a given name. -/
def findOption (specs : List OptionSpec) (name : OptionName) : Except UsageError OptionSpec :=
  match specs.find? (·.hasName name) with
  | some s => .ok s
  | none => .error (.unrecognized name.text)

/-- Short options that stand together. One that takes a value takes what follows it. -/
def readShort (specs : List OptionSpec) : List Char → Except UsageError Reading
  | [] => .ok {}
  | c :: cs => do
    let s ← findOption specs (.short c)
    if s.takesValue then
      if cs.isEmpty then .ok { pending := some (s, .short c) }
      else .ok { given := [{ long := s.long, value := some (String.ofList cs) }] }
    else
      let others ← readShort specs cs
      .ok { others with given := { long := s.long } :: others.given }

/-- What stands behind two dashes: a name, and a value after an equals sign. -/
def readLong (specs : List OptionSpec) (cs : List Char) : Except UsageError Reading :=
  let (name, value) := match Text.cutFirst '=' cs with
    | some (name, value) => (OptionName.ofLong name, some (String.ofList value))
    | none => (OptionName.ofLong cs, none)
  do
    let s ← findOption specs name
    match s.takesValue, value with
    | true, some v => .ok { given := [{ long := s.long, value := some v }] }
    | true, none => .ok { pending := some (s, name) }
    | false, some _ => .error (.unexpectedValue name.text)
    | false, none => .ok { given := [{ long := s.long }] }

/-- What an argument says, if it is one of options. A lone dash is a free argument. -/
def readOption? (specs : List OptionSpec) (arg : String) : Option (Except UsageError Reading) :=
  match arg.toList with
  | '-' :: '-' :: cs => some (readLong specs cs)
  | '-' :: c :: cs => some (readShort specs (c :: cs))
  | _ => none

/-- The options and free arguments among some arguments, after an option that takes the first of
them, if there is one. -/
def readAll (specs : List OptionSpec) (pending : Option (OptionSpec × OptionName)) :
    List String → Except UsageError Arguments
  | [] =>
    match pending with
    | some (_, name) => .error (.valueMissing name.text)
    | none => .ok {}
  | arg :: rest =>
    match pending with
    | some (s, _) =>
      Arguments.withGiven [{ long := s.long, value := some arg }] <$> readAll specs none rest
    | none =>
      if arg = "--" then .ok { free := rest }
      else
        match readOption? specs arg with
        | none => Arguments.withFree arg <$> readAll specs none rest
        | some reading => do
          let r ← reading
          Arguments.withGiven r.given <$> readAll specs r.pending rest

/-- Accepts arguments that repeat only what may be repeated. -/
def checkRepeated (a : Arguments) : List OptionSpec → Except UsageError Unit
  | [] => .ok ()
  | s :: rest =>
    if !s.repeatable && decide (1 < a.given.countP (·.long == s.long)) then
      .error (.repeated s.long)
    else checkRepeated a rest

/-- The options and free arguments of a command line. -/
def parseArguments (specs : List OptionSpec) (args : List String) :
    Except UsageError Arguments := do
  let a ← readAll specs none args
  checkRepeated a specs
  .ok a

end Crosswalk.Command
