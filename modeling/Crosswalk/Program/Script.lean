import Crosswalk.Program.Focus
import Crosswalk.Program.Block
import Crosswalk.Text.Blank
import Crosswalk.Text.Literal
import Crosswalk.Text.Split

/-!
The text of a program: lines at a depth, each block between the braces of the statement that owns
it. The text of one mapping can be taken out of a program, without the indentation it has there.
-/

namespace Crosswalk

/-- A line of a script before it is indented. -/
structure ScriptLine where
  depth : Nat
  text : String
  deriving DecidableEq, Repr

namespace ScriptLine

/-- The spaces in front of a line at a depth. -/
def indentation (unit depth : Nat) : List Char := List.replicate (depth * unit) ' '

/-- The line with its indentation and its line break. An empty line has no indentation. -/
def chars (unit : Nat) (l : ScriptLine) : List Char :=
  (if l.text.isEmpty then [] else indentation unit l.depth ++ l.text.toList) ++ ['\n']

/-- The text of some lines. -/
def charsOf (unit : Nat) (ls : List ScriptLine) : List Char := ls.flatMap (chars unit)

end ScriptLine

/-! ### Expressions -/

/-- The name of a tag in the source record. -/
def Tag.sourceName (t : Tag) : String := if t.isAttribute then "@" ++ t.qname else t.qname

/-- Navigation by tags in turn. -/
def Expression.navText (base : String) : List Tag → String
  | [] => base
  | t :: rest => navText (base ++ "." ++ Text.identifier t.sourceName) rest

mutual

/-- The text of an expression. -/
def Expression.text : Expression → String
  | .var name => name
  | .literal s => Text.quote s
  | .nav base steps => navText base steps
  | .joined e delimiter => e.text ++ "*.text().join(" ++ Text.quote delimiter ++ ")"
  | .first e => e.text ++ "[0]"
  | .call function args => function ++ "(" ++ Text.joinWith ", " (textsOf args) ++ ")"
  | .mapJoin base keys =>
    "mapJoin(" ++ base ++ ", "
      ++ Text.joinWith ", " (keys.map fun t => Text.quote t.sourceName) ++ ")"
  | .alternatives es => Text.joinWith " ?: " (textsOf es)

/-- The texts of some expressions. -/
def Expression.textsOf : List Expression → List String
  | [] => []
  | e :: es => e.text :: textsOf es

end

/-- The text of a condition. -/
def Condition.text : Condition → String
  | .present e => e.text
  | .absent t => "absent(" ++ Text.quote t.qname ++ ")"

/-! ### Statements -/

namespace Script

open Text

/-- A text without the blanks at its end. -/
def rtrim (s : String) : String := String.ofList (trimEnd s.toList)

/-- The lines of a comment. -/
def commentLines (depth : Nat) (s : String) : List ScriptLine :=
  (linesOf s).map fun line => ⟨depth, rtrim ("// " ++ line)⟩

/-- The lines of a table. -/
def tableLines (depth : Nat) (name : String) (entries : List (String × String)) :
    List ScriptLine :=
  if entries.isEmpty then [⟨depth, "def " ++ name ++ " = [:]"⟩]
  else
    ⟨depth, "def " ++ name ++ " = ["⟩
      :: entries.map (fun e => ⟨depth + 1, quote e.1 ++ ": " ++ quote e.2 ++ ","⟩)
      ++ [⟨depth, "]"⟩]

/-- The lines of a statement with nothing inside. -/
def simpleLines (depth : Nat) : Simple → List ScriptLine
  | .comment s => commentLines depth s
  | .namespaceDecl qualifier uri =>
    [⟨depth, "namespace(" ++ quote qualifier ++ ", " ++ quote uri ++ ")"⟩]
  | .table name entries => tableLines depth name entries
  | .lookup name table =>
    [⟨depth, "def " ++ name ++ " = \x7b value ->"⟩,
      ⟨depth + 1, "def translated = " ++ table ++ "[value.toString().trim()]"⟩,
      ⟨depth + 1, "translated ? translated : ''"⟩,
      ⟨depth, "\x7d"⟩]
  | .define var value => [⟨depth, "def " ++ var ++ " = " ++ value.text⟩]
  | .code s => (linesOf s).map fun line => ⟨depth, rtrim line⟩
  | .assertion path condition =>
    ⟨depth, "assertion(" ++ quote path.text ++ ") \x7b"⟩
      :: (linesOf condition).map (fun line => ⟨depth + 1, trim line⟩)
      ++ [⟨depth, "\x7d"⟩]

/-- The arguments of a constructor. -/
def argumentText (attributes : List (Tag × Expression)) (value : Option Expression) : String :=
  joinWith ", " (attributes.map (fun a => identifier a.1.qname ++ ": " ++ a.2.text)
    ++ value.toList.map Expression.text)

/-- The head of a constructor around a block, and the whole of one without a block. -/
def elementText (tag : Tag) (args : String) (isEmpty : Bool) : String :=
  match isEmpty, args.isEmpty with
  | true, _ => identifier tag.qname ++ "(" ++ args ++ ")"
  | false, true => identifier tag.qname ++ " \x7b"
  | false, false => identifier tag.qname ++ "(" ++ args ++ ") \x7b"

/-- What opens a block. -/
def headText : Opening → String
  | .loop var source first =>
    source.text ++ (if first then "[0]" else "") ++ " * \x7b " ++ var ++ " ->"
  | .bind var value => "ifPresent(" ++ value.text ++ ") \x7b " ++ var ++ " ->"
  | .compute var param _ => "def " ++ var ++ " = \x7b " ++ param ++ " ->"
  | .guarded condition => "if (" ++ condition.text ++ ") \x7b"
  | .element tag attributes value => elementText tag (argumentText attributes value) false
  | .mapping .. => ""

/-- What closes a block. -/
def tailText : Opening → String
  | .compute _ _ arg => "\x7d(" ++ arg.text ++ ")"
  | _ => "\x7d"

/-- The lines of a statement around the lines of its block. An element without a block is one line,
and a mapping is its block. -/
def nestedLines (depth : Nat) (o : Opening) (isEmpty : Bool) (inside : Nat → List ScriptLine) :
    List ScriptLine :=
  match o, isEmpty with
  | .mapping .., _ => inside depth
  | .element tag attributes value, true =>
    [⟨depth, elementText tag (argumentText attributes value) true⟩]
  | _, _ => ⟨depth, headText o⟩ :: inside (depth + 1) ++ [⟨depth, tailText o⟩]

/-- The lines of a block. -/
def blockLines (depth : Nat) : Block → List ScriptLine
  | .nil => []
  | .simple s rest => simpleLines depth s ++ blockLines depth rest
  | .nested o body rest =>
    nestedLines depth o body.isEmpty (fun d => blockLines d body) ++ blockLines depth rest

/-! ### Programs -/

/-- How a program is printed. -/
structure Layout where
  /-- The spaces for each level of nesting. -/
  indent : Nat := 4
  /-- A comment at the top. -/
  header : Option String := none
  deriving DecidableEq, Repr

/-- An empty line. -/
def blankLine : ScriptLine := ⟨0, ""⟩

/-- The lines of the comment at the top. -/
def headerLines : Option String → List ScriptLine
  | some s => commentLines 0 s ++ [blankLine]
  | none => []

/-- The lines of the declarations. -/
def prologueLines (b : Block) : List ScriptLine :=
  if b.isEmpty then [] else blockLines 0 b ++ [blankLine]

/-- The lines of what comes after the output. -/
def epilogueLines (b : Block) : List ScriptLine :=
  if b.isEmpty then [] else blankLine :: blockLines 0 b

/-- The lines of a program. -/
def programLines (header : Option String) (p : Program) : List ScriptLine :=
  headerLines header ++ prologueLines p.prologue
    ++ ⟨0, "output \x7b"⟩ :: blockLines 1 p.output ++ [⟨0, "\x7d"⟩]
    ++ epilogueLines p.epilogue

/-- The text of a program. -/
def print (layout : Layout) (p : Program) : String :=
  String.ofList (ScriptLine.charsOf layout.indent (programLines layout.header p))

/-! ### One mapping of a program -/

/-- The first emission of the mapping in focus, with the depth at which it is printed. -/
def findMapping? (f : Focus) (depth : Nat) : Block → Option (Nat × Block)
  | .nil => none
  | .simple _ rest => findMapping? f depth rest
  | .nested o body rest =>
    match o with
    | .mapping output input =>
      if f.output = output ∧ f.input = input then some (depth, body)
      else (findMapping? f depth body).or (findMapping? f depth rest)
    | _ => (findMapping? f (depth + 1) body).or (findMapping? f depth rest)

/-- The first emission of the mapping in focus in a program. -/
def findInProgram? (f : Focus) (p : Program) : Option (Nat × Block) :=
  (findMapping? f 0 p.prologue).or
    ((findMapping? f 1 p.output).or (findMapping? f 0 p.epilogue))

/-- A line without the margin, if it has it. -/
def dropMargin (margin line : List Char) : List Char :=
  if margin.isPrefixOf line then line.drop margin.length else line

/-- The text of a block at a depth, without the indentation of that depth and the last line
break. -/
def captured (unit depth : Nat) (body : Block) : String :=
  let printed := lines (ScriptLine.charsOf unit (blockLines depth body))
  let margin := ScriptLine.indentation unit depth
  joinWith "\n" (printed.map fun line => String.ofList (dropMargin margin line))

/-- The text of the mapping in focus. -/
def capture? (layout : Layout) (f : Focus) (p : Program) : Option String :=
  (findInProgram? f p).map fun (depth, body) => captured layout.indent depth body

end Script

end Crosswalk
