import Crosswalk.Text.Blank
import Crosswalk.Text.Split

/-!
Snippets: code authored for a node, with an optional fallback that runs when the node is still
absent. In text the fallback is a block behind a guard line at brace depth zero; only the first
such block is one, and everything else is code.
-/

namespace Crosswalk

/-- Authored code and its fallback. -/
structure Snippet where
  code : String := ""
  absent : Option String := none
  deriving DecidableEq, Repr, Inhabited

namespace Snippet

open Text

/-- The line that opens a fallback block. -/
def guardLine : String := "if (_absent_) \x7b"

/-- The spaces in front of a line of a written fallback. -/
def margin : List Char := List.replicate 4 ' '

/-- Opening braces less closing ones. -/
def braceBalance : List Char → Int
  | [] => 0
  | c :: cs =>
    (if c = '\x7b' then 1 else if c = '\x7d' then -1 else 0) + braceBalance cs

/-- Whether a line holds the guard and nothing else. -/
def isGuard (line : List Char) : Bool := strip isBlank line == guardLine.toList

/-- The lines of a block that is open `depth` deep, and the lines after it. The line that closes
the block belongs to neither. -/
def takeBlock (depth : Int) : List (List Char) → List (List Char) × List (List Char)
  | [] => ([], [])
  | line :: rest =>
    if depth + braceBalance line ≤ 0 then ([], rest)
    else
      let (block, after) := takeBlock (depth + braceBalance line) rest
      (line :: block, after)

/-- The lines of code, and those of the first block behind a guard at brace depth zero. -/
def splitGuard (depth : Int) : List (List Char) → List (List Char) × Option (List (List Char))
  | [] => ([], none)
  | line :: rest =>
    if depth = 0 && isGuard line then
      let (block, after) := takeBlock 1 rest
      (after, some block)
    else
      let (code, block) := splitGuard (depth + braceBalance line) rest
      (line :: code, block)

/-- The size of a text in UTF-8. -/
def byteLength : List Char → Nat
  | [] => 0
  | c :: cs => c.utf8Size + byteLength cs

/-- The text after its first `n` bytes, or nothing if these end within a character. -/
def dropBytes : Nat → List Char → List Char
  | 0, cs => cs
  | _, [] => []
  | n + 1, c :: cs => if c.utf8Size ≤ n + 1 then dropBytes (n + 1 - c.utf8Size) cs else []

/-- The size of the blanks in front of a line. -/
def indentation (line : List Char) : Nat := byteLength (line.takeWhile isBlank)

/-- The least indentation of the lines that are not blank. -/
def commonMargin (block : List (List Char)) : Nat :=
  (((block.filter fun line => !allBlank line).map indentation).min?).getD 0

/-- The lines without their common margin and without trailing blanks. -/
def dedent (block : List (List Char)) : List (List Char) :=
  block.map fun line => trimEnd (dropBytes (commonMargin block) line)

/-- Lines as one text. -/
def unlines (ls : List (List Char)) : List Char := ['\n'].intercalate ls

/-- The snippet that a text denotes. -/
def parse (s : String) : Snippet :=
  let (code, block) := splitGuard 0 (lines s.toList)
  { code := String.ofList (trimEnd (unlines code))
    absent := block.map fun b => String.ofList (unlines (dedent b)) }

/-- A fallback as a block behind its guard. -/
def guardedBlock (absent : String) : List Char :=
  '\n' :: guardLine.toList ++ ['\n']
    ++ (lines absent.toList).flatMap (fun line => margin ++ line ++ ['\n'])
    ++ ['\x7d']

/-- The text of a snippet. -/
def text (s : Snippet) : String :=
  String.ofList (s.code.toList ++ (s.absent.map guardedBlock).getD [])

instance : ToString Snippet := ⟨text⟩

end Snippet

end Crosswalk
