import Crosswalk.Path
import Crosswalk.Tag.Text

/-!
The text of a path: each tag after a `/`, and a lone `/` for the root. Reading takes the first `/`
as optional and splits at every `/` that no backslash escapes.
-/

namespace Crosswalk

/-- Why a path operation or a path text is refused. -/
inductive PathError where
  /-- A path of fewer than two tags has no remainder after its root. -/
  | tooShort (path : Path)
  /-- The remainder after a path that is no ancestor. -/
  | notAncestor (path ancestor : Path)
  /-- A step of the text is no tag. -/
  | invalidTag (text : String) (cause : TagError)
  deriving DecidableEq, Repr

namespace Path

open Text

/-- The text of a path. -/
def chars (p : Path) : List Char :=
  if p.tags.isEmpty then ['/'] else p.tags.flatMap fun t => '/' :: t.chars

/-- The text of a path. -/
def text (p : Path) : String := String.ofList p.chars

instance : ToString Path := ⟨text⟩

/-- The text of a path with the mark of a path around it. -/
def debugText (p : Path) : String := "Path(" ++ p.text ++ ")"

/-- The texts of the tags of a path text. -/
def steps (cs : List Char) : List (List Char) :=
  let body := match cs with
    | '/' :: rest => rest
    | _ => cs
  if body.isEmpty then [] else unescapedPieces '/' body

/-- The tags that a path text's steps denote; the first step that is no tag is the error. -/
def parseSteps (whole : String) : List (List Char) → Except PathError (List Tag)
  | [] => .ok []
  | step :: rest =>
    match Tag.parse (String.ofList step) with
    | .error e => .error (.invalidTag whole e)
    | .ok t => (t :: ·) <$> parseSteps whole rest

/-- The path that a text denotes. -/
def parse (s : String) : Except PathError Path := Path.mk <$> parseSteps s (steps s.toList)

/-- The path without its first tag. -/
def dropRoot (p : Path) : Except PathError Path :=
  if p.length < 2 then .error (.tooShort p) else .ok (p.drop 1)

/-- The tags of `p` beyond its proper prefix `ancestor`. -/
def beyond (p ancestor : Path) : Except PathError Path :=
  if ancestor.isAncestorOf p then .ok (p.drop ancestor.length) else .error (.notAncestor p ancestor)

end Path

namespace PathError

/-- The wording of the error. -/
def message : PathError → String
  | tooShort path => s!"path `{path}` is too short to remove its root"
  | notAncestor path ancestor => s!"`{ancestor}` is not an ancestor of `{path}`"
  | invalidTag text cause => "invalid path `" ++ text ++ "`: " ++ cause.message

/-- The error that this one reports about. -/
def cause? : PathError → Option TagError
  | invalidTag _ cause => some cause
  | _ => none

end PathError

end Crosswalk
