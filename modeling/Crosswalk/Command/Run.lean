import Crosswalk.Command.Directory
import Crosswalk.Command.Request
import Crosswalk.Program.Generation
import Crosswalk.Schema.Reading
import Crosswalk.Text.Quoted
import Crosswalk.Tree.Edit

/-!
Running a request: from the text of the record definition to what is printed, what is written to a
file, and the exit status. Nothing is printed of a program that cannot be generated.
-/

namespace Crosswalk.Command

/-- What a run leaves behind. -/
structure Outcome where
  status : Nat := 0
  stdout : String := ""
  stderr : String := ""
  /-- The file that gets a text. -/
  written : Option (String × String) := none
  deriving DecidableEq, Repr

/-- Why a run fails. -/
inductive Failure where
  /-- A file cannot be read or written; the system says why. -/
  | file (reason : String)
  | schema (cause : SchemaError)
  | attach (cause : AttachError)
  deriving DecidableEq, Repr

namespace Failure

/-- The failure as a reportable event. -/
def diagnostic : Failure → Diagnostic
  | file reason => { message := reason, remarks := [] }
  | schema cause => cause.diagnostic
  | attach cause => cause.diagnostic

/-- What is printed about the failure to do something with a schema. -/
def text (f : Failure) (action schema : String) : String :=
  f.diagnostic.report ++ "\nfatal: failed to " ++ action ++ " `" ++ schema ++ "`\n"

end Failure

/-- The usage of the command. -/
def usageText : String :=
  "Usage: recmapc [OPTIONS] SCHEMA\n"
    ++ "\n"
    ++ "Options:\n"
    ++ "    -m, --map OUT=IN[,SIB...][:OP]\n"
    ++ "                        map source path(s) onto an output node\n"
    ++ "    -c, --const OUT=VALUE\n"
    ++ "                        map a constant onto an output node\n"
    ++ "        --focus OUT[=IN]\n"
    ++ "                        print only the text of a single mapping\n"
    ++ "        --list          list mapping nodes and exit\n"
    ++ "    -o, --output NAME   set output file name\n"
    ++ "    -v, --verbose       increase log verbosity\n"
    ++ "    -h, --help          print this help menu\n"

/-- The line about a node in a listing. -/
def nodeLine (n : Node) : String :=
  n.path.text
    ++ n.role?.elim "" (fun role => " (" ++ role.name ++ ")")
    ++ (if n.isHidden then " hidden" else "")
    ++ (if n.required then " required" else "")
    ++ n.function.elim "" (fun function => " function=" ++ function)
    ++ n.init.elim "" (fun init => " init=" ++ Text.quoted init)
    ++ (n.doc.bind fun doc => (Text.linesOf doc).head?).elim ""
        (fun line => " -- " ++ Text.trim line)
    ++ "\n"

/-- The listing of the nodes of a tree. -/
def listing (t : MappingTree) : String := String.join (t.nodes.map nodeLine)

/-- Files are read in blocks of this many bytes. -/
def blockSize : Nat := 8192

/-- The tree of the record definition that a text describes. -/
def loadTree (text : Except String String) : Except Failure MappingTree :=
  match text with
  | .error reason => .error (.file reason)
  | .ok s =>
    match Record.ofEvents (Markup.scanBlocks blockSize s) with
    | .error e => .error (.schema e)
    | .ok r => .ok (MappingTree.ofRecord r)

/-- The tree of the record definition that a text describes, with some mappings. -/
def buildTree (text : Except String String) (ms : List Mapping) : Except Failure MappingTree := do
  let t ← loadTree text
  match t.attachAll ms with
  | .ok t => .ok t
  | .error e => .error (.attach e)

/-- The layout of the program of a tree. -/
def layoutOf (t : MappingTree) : Script.Layout :=
  { header := some (t.qualifier ++ " " ++ t.version ++ " (generated by recmapc)") }

/-- What is left behind when something cannot be done with a schema, after some warnings. -/
def failed (warnings : String) (f : Failure) (action schema : String) : Outcome :=
  { status := 1, stderr := warnings ++ f.text action schema }

/-- The outcome of a listing. -/
def runList (schema : String) (text : Except String String) : Outcome :=
  match loadTree text with
  | .ok t => { stdout := listing t }
  | .error f => failed "" f "read" schema

/-- The outcome of a job. -/
def runJob (job : Job) (text : Except String String) : Outcome :=
  match buildTree text job.mappings with
  | .error f => failed "" f "compile" job.schema
  | .ok t =>
    let g := t.generate (fun _ => none) (layoutOf t) job.focus
    let result := g.focus.getD g.text
    { stdout := if job.output.isSome then "" else result
      stderr := String.join (g.gaps.map fun gap => gap.diagnostic.report)
      written := job.output.map fun file => (file, result) }

/-- The outcome of a job whose file could not be written. -/
def runUnwritten (job : Job) (o : Outcome) (reason : String) : Outcome :=
  failed o.stderr (.file reason) "compile" job.schema

/-- The outcome of a command line that asks for nothing that can be done. -/
def refused (e : UsageError) : Outcome :=
  { status := 64, stdout := usageText ++ "\n", stderr := e.message ++ "\n" }

/-- The outcome of a command line, given what the files it names hold and why a file could not be
written. -/
def run (args : List String) (contents : String → Except String String)
    (refusal : String → Option String) : Outcome :=
  match parseRequest args with
  | .error e => refused e
  | .ok .usage => { stdout := usageText ++ "\n" }
  | .ok (.list schema) => runList schema (contents schema)
  | .ok (.compile job) =>
    let o := runJob job (contents job.schema)
    match o.written.bind fun (file, _) => refusal file with
    | some reason => runUnwritten job o reason
    | none => o

/-- Why a schema cannot be read. A directory can be opened, but it is no document. -/
def unreadable : FileError → String
  | .isDirectory => "malformed record definition: I/O error: " ++ FileError.isDirectory.message
  | e => e.message

/-- The outcome of a command line in a directory, and the directory afterwards. -/
def runIn (d : Directory) (args : List String) : Outcome × Directory :=
  let contents (file : String) : Except String String := (d.read file).mapError unreadable
  let refusal (file : String) : Option String :=
    match d.write file "" with
    | .ok _ => none
    | .error e => some e.message
  let o := run args contents refusal
  match o.written with
  | none => (o, d)
  | some (file, text) => (o, ((d.write file text).toOption).getD d)

/-- The file that a command line reads, if it reads one. -/
def schemaFile? (args : List String) : Option String :=
  match parseRequest args with
  | .ok (.list schema) => some schema
  | .ok (.compile job) => some job.schema
  | _ => none

end Crosswalk.Command
