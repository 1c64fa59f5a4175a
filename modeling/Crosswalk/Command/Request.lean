import Crosswalk.Command.Arguments
import Crosswalk.Program.Focus

/-!
What a command line asks for: the usage, a listing of the nodes of a record definition, or the
program of some mappings. Mappings are written `OUT=IN[,SIB...][:OP]`; names may contain a colon
too, so the last one is a separator only if an operator's name follows it.
-/

namespace Crosswalk.Command

/-- Why the text of a mapping, a constant or a focus is refused. -/
inductive SpecError where
  | missingEquals
  | path (cause : PathError)
  /-- A focus without an input, on a node that is not mapped on the command line. -/
  | noMapping
  deriving DecidableEq, Repr

/-- The wording of the error. -/
def SpecError.message : SpecError → String
  | missingEquals => "missing `=`"
  | path cause => cause.message
  | noMapping => "no mapping of OUT was given"

/-- The path that a text denotes. -/
def parsePath (cs : List Char) : Except SpecError Path :=
  match Path.parse (String.ofList cs) with
  | .ok p => .ok p
  | .error e => .error (.path e)

/-- The paths that some texts denote. -/
def parsePaths : List (List Char) → Except SpecError (List Path)
  | [] => .ok []
  | cs :: rest => do
    let p ← parsePath cs
    let ps ← parsePaths rest
    .ok (p :: ps)

/-- The two sides of the first equals sign. -/
def sides (spec : String) : Except SpecError (List Char × List Char) :=
  match Text.cutFirst '=' spec.toList with
  | some sides => .ok sides
  | none => .error .missingEquals

/-- The inputs and the operator of the right side of a mapping. -/
def splitOperator (cs : List Char) : List Char × Option Operator :=
  match Text.cutLast ':' cs with
  | some (inputs, name) =>
    match Operator.parse (String.ofList name) with
    | .ok op => (inputs, some op)
    | .error _ => (cs, none)
  | none => (cs, none)

/-- The mapping that a text denotes. -/
def parseMapping (spec : String) : Except SpecError Mapping := do
  let (outputText, right) ← sides spec
  let (inputs, operator) := splitOperator right
  let paths ← parsePaths (Text.pieces ',' inputs)
  let output ← parsePath outputText
  .ok { output, input := paths.headD Path.root, siblings := paths.tail, operator }

/-- The constant mapping that a text denotes. -/
def parseConstant (spec : String) : Except SpecError Mapping := do
  let (outputText, value) ← sides spec
  let output ← parsePath outputText
  .ok (Mapping.ofConstant output (String.ofList value))

/-- The focus that a text denotes. Without an input it is the first of some mappings that has the
output. -/
def parseFocus (spec : String) (mappings : List Mapping) : Except SpecError Focus :=
  match Text.cutFirst '=' spec.toList with
  | some (outputText, inputText) => do
    let output ← parsePath outputText
    let input ← parsePath inputText
    .ok { output, input }
  | none => do
    let output ← parsePath spec.toList
    match mappings.find? (·.output == output) with
    | some m => .ok { output, input := m.input }
    | none => .error .noMapping

/-- A program that a command line asks for. -/
structure Job where
  schema : String
  mappings : List Mapping
  focus : Option Focus
  /-- The file that gets the text; without one it is printed. -/
  output : Option String
  deriving DecidableEq, Repr

/-- What a command line asks for. -/
inductive Request where
  | usage
  | list (schema : String)
  | compile (job : Job)
  deriving DecidableEq, Repr

/-- The options of the command. -/
def options : List OptionSpec :=
  [{ long := "map", short := some 'm', takesValue := true, repeatable := true },
    { long := "const", short := some 'c', takesValue := true, repeatable := true },
    { long := "focus", takesValue := true },
    { long := "list" },
    { long := "output", short := some 'o', takesValue := true },
    { long := "verbose", short := some 'v', repeatable := true },
    { long := "help", short := some 'h' }]

/-- What texts denote, or the usage error about the first that denotes nothing, under the form in
which they are written. -/
def parseSpecs {α : Type} (form : String) (parse : String → Except SpecError α) :
    List String → Except UsageError (List α)
  | [] => .ok []
  | spec :: rest =>
    match parse spec with
    | .error e => .error (.valueMissing (form ++ " (`" ++ spec ++ "`: " ++ e.message ++ ")"))
    | .ok a => (a :: ·) <$> parseSpecs form parse rest

/-- The job of some options and a schema. -/
def parseJob (a : Arguments) (schema : String) : Except UsageError Job := do
  let mapped ← parseSpecs "--map OUT=IN[,SIB...][:OP]" parseMapping (a.valuesOf "map")
  let constants ← parseSpecs "--const OUT=VALUE" parseConstant (a.valuesOf "const")
  let mappings := mapped ++ constants
  let focus ←
    parseSpecs "--focus OUT[=IN]" (parseFocus · mappings) (a.valuesOf "focus")
  .ok { schema, mappings, focus := focus.head?, output := (a.valuesOf "output").head? }

/-- What a command line asks for. -/
def parseRequest (args : List String) : Except UsageError Request := do
  let a ← parseArguments options args
  if a.has "help" then .ok .usage
  else
    match a.free with
    | [] => .error (.required "SCHEMA")
    | [schema] =>
      if a.has "list" then .ok (.list schema) else .compile <$> parseJob a schema
    | _ :: extra :: _ => .error (.unrecognized extra)

end Crosswalk.Command
