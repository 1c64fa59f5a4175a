import Crosswalk.Vocabulary
import Crosswalk.Path.Text

/-!
The wording of what is wrong with a vocabulary.
-/

namespace Crosswalk.VocabularyError

/-- The wording of the error. -/
def message : VocabularyError → String
  | empty root => s!"option list at `{root}` is empty"
  | duplicateValue root value =>
    s!"option list at `{root}` declares value `{value}` more than once"
  | duplicateKey root key => s!"option list at `{root}` declares key `{key}` more than once"
  | outsideRoot root field =>
    s!"option list at `{root}` refers to `{field}`, which is not beneath it"

end Crosswalk.VocabularyError
