import Crosswalk.Tree.Instance

/-!
Focus: generation narrowed to one mapping, and the warning that there is no such mapping.
-/

namespace Crosswalk

/-- The one mapping to which generation is narrowed. -/
structure Focus where
  output : Path
  input : Path
  deriving DecidableEq, Repr

/-- A focus that names no mapping; the whole program is generated instead. -/
structure GenerationGap where
  output : Path
  input : Path
  deriving DecidableEq, Repr

namespace GenerationGap

/-- The wording of the warning. -/
def message (g : GenerationGap) : String :=
  "no mapping of `" ++ g.output.text ++ "` from `" ++ g.input.text ++ "` to generate"

/-- The warning as a reportable event. -/
def diagnostic (g : GenerationGap) : Diagnostic :=
  { level := .warning
    message := g.message
    remarks :=
      [g.output.warningRemark "focused node",
        g.input.noteRemark "this input is not mapped onto the node",
        g.output.helpRemark "the complete program was generated instead"] }

end GenerationGap

/-- Whether the node at the focus's output has a mapping from its input. -/
def MappingTree.has (t : MappingTree) (f : Focus) : Bool :=
  match (t.nodeAt? f.output).bind fun i => t.nodes[i]? with
  | some n => (n.mapping? f.input).isSome
  | none => false

end Crosswalk
