import Crosswalk.Program.Emission
import Crosswalk.Program.Script

/-!
Generation: the text of the program of a mapping tree, and the text of the mapping in focus.
-/

namespace Crosswalk

/-- The result of generation. -/
structure Generated where
  text : String
  /-- The text of the mapping in focus, if there is one. -/
  focus : Option String
  gaps : List GenerationGap
  deriving DecidableEq, Repr

/-- The text of the program of a mapping tree. A focus that names no mapping captures nothing. -/
def MappingTree.generate (t : MappingTree) (snippets : SnippetStore) (layout : Script.Layout)
    (focus : Option Focus) : Generated :=
  let (p, gaps) := t.program snippets focus
  { text := Script.print layout p
    focus := (focus.filter fun _ => gaps.isEmpty).bind fun f => Script.capture? layout f p
    gaps }

end Crosswalk
