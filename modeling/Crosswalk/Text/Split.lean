/-!
Cutting a text at a separating character: at its first occurrence, at its last, at every one that
no backslash escapes, and into lines.
-/

namespace Crosswalk.Text

/-- The parts before and after the first `sep`. -/
def cutFirst (sep : Char) : List Char → Option (List Char × List Char)
  | [] => none
  | c :: cs =>
    if c = sep then some ([], cs)
    else (cutFirst sep cs).map fun (before, after) => (c :: before, after)

/-- The parts before and after the last `sep`. -/
def cutLast (sep : Char) : List Char → Option (List Char × List Char)
  | [] => none
  | c :: cs =>
    match cutLast sep cs with
    | some (before, after) => some (c :: before, after)
    | none => if c = sep then some ([], cs) else none

/-- Puts a character in front of the first of some pieces. -/
def consFirst (c : Char) : List (List Char) → List (List Char)
  | [] => [[c]]
  | p :: ps => (c :: p) :: ps

/-- The pieces between separators; there is always at least one. -/
def pieces (sep : Char) : List Char → List (List Char)
  | [] => [[]]
  | c :: cs => if c = sep then [] :: pieces sep cs else consFirst c (pieces sep cs)

/-- The pieces between the separators that no backslash escapes. A backslash escapes exactly the
next character, and both stay in their piece. -/
def unescapedPieces (sep : Char) : List Char → List (List Char)
  | [] => [[]]
  | ['\\'] => [['\\']]
  | '\\' :: c :: cs => consFirst '\\' (consFirst c (unescapedPieces sep cs))
  | c :: cs => if c = sep then [] :: unescapedPieces sep cs else consFirst c (unescapedPieces sep cs)

/-- Ends the lines that line feeds separate: a carriage return directly before a line feed belongs
to the line break, and an empty last line is none. -/
def endLines : List (List Char) → List (List Char)
  | [] => []
  | [last] => if last.isEmpty then [] else [last]
  | line :: next :: rest =>
    (if line.getLast? = some '\r' then line.dropLast else line) :: endLines (next :: rest)

/-- The lines of a text without their line breaks. -/
def lines (cs : List Char) : List (List Char) := endLines (pieces '\n' cs)

/-- The lines of a text without their line breaks. -/
def linesOf (s : String) : List String := (lines s.toList).map String.ofList

/-- The texts with `sep` between each two. -/
def joinWith (sep : String) : List String → String
  | [] => ""
  | [s] => s
  | s :: t :: rest => s ++ sep ++ joinWith sep (t :: rest)

end Crosswalk.Text
