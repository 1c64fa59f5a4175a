import Crosswalk.Tag
import Crosswalk.Text.Blank
import Crosswalk.Text.Split
import Crosswalk.Text.Numeral

/-!
The text of a tag: `@` for an attribute, the qualified name, `#` and the descendancy unless it is
zero, and the variant key in brackets. Within a key the characters `\`, `[`, `]` and `/` are
escaped, so that any key can stand in the text of a path.
-/

namespace Crosswalk.Tag

open Text

/-- The characters that a backslash escapes within a variant key. -/
def escapedInKey (c : Char) : Bool := c == '\\' || c == '[' || c == ']' || c == '/'

/-- The text of a variant key, with its escapes. -/
def escapeKey : List Char → List Char
  | [] => []
  | c :: cs => if escapedInKey c then '\\' :: c :: escapeKey cs else c :: escapeKey cs

/-- The text of a tag. -/
def chars (t : Tag) : List Char :=
  (if t.isAttribute then ['@'] else [])
    ++ t.qname.toList
    ++ (if t.descendancy = 0 then [] else '#' :: Nat.toDigits 10 t.descendancy.toNat)
    ++ (match t.variant with
        | some key => '[' :: escapeKey key.toList ++ [']']
        | none => [])

/-- The text of a tag. -/
def text (t : Tag) : String := String.ofList t.chars

instance : ToString Tag := ⟨text⟩

end Crosswalk.Tag

namespace Crosswalk

/-- Why a text is no tag. Each cause carries the whole text. -/
inductive TagError where
  /-- The text or one of its parts is empty. -/
  | empty (text : String)
  /-- A character that cannot stand where it does. -/
  | invalidChar (text : String) (char : Char)
  /-- The descendancy is not a number. -/
  | badDescendancy (text : String)
  /-- The variant key is opened and not closed. -/
  | unclosedVariant (text : String)
  deriving DecidableEq, Repr

namespace TagError

/-- The wording of the error. -/
def message : TagError → String
  | empty text => s!"empty tag name in `{text}`"
  | invalidChar text char => s!"invalid character `{char}` in tag `{text}`"
  | badDescendancy text => s!"descendancy of tag `{text}` is not a number"
  | unclosedVariant text => s!"variant key of tag `{text}` is missing `]`"

end TagError

end Crosswalk

namespace Crosswalk.Tag

open Text

/-- The characters that cannot stand in a name. -/
def reservedInName (c : Char) : Bool :=
  isBlank c || c == '/' || c == ':' || c == '@' || c == '[' || c == ']' || c == '#'

/-- Accepts a prefix or local name of the tag text `whole`. -/
def checkName (whole : String) (name : List Char) : Except TagError Unit :=
  if name.isEmpty then .error (.empty whole)
  else
    match name.find? reservedInName with
    | some c => .error (.invalidChar whole c)
    | none => .ok ()

/-- The variant key whose text follows the opening bracket. Its closing bracket ends the tag. -/
def unescapeKey (whole : String) : List Char → Except TagError (List Char)
  | [] => .error (.unclosedVariant whole)
  | ['\\'] => .error (.unclosedVariant whole)
  | '\\' :: c :: rest => (c :: ·) <$> unescapeKey whole rest
  | [']'] => .ok []
  | ']' :: _ :: _ => .error (.invalidChar whole ']')
  | c :: rest => (c :: ·) <$> unescapeKey whole rest

/-- The variant key whose text follows the opening bracket; an empty key is refused. -/
def parseKey (whole : String) (cs : List Char) : Except TagError String := do
  let key ← unescapeKey whole cs
  if key.isEmpty then .error (.empty whole) else .ok (String.ofList key)

/-- The name and the variant key of the text after the attribute mark. -/
def parseVariant (whole : String) (cs : List Char) :
    Except TagError (List Char × Option String) :=
  match cutFirst '[' cs with
  | some (name, keyText) => do
    let key ← parseKey whole keyText
    .ok (name, some key)
  | none => .ok (cs, none)

/-- The qualified name and the descendancy of the text before the variant key. -/
def parseDescendancy (whole : String) (cs : List Char) :
    Except TagError (List Char × UInt32) :=
  match cutFirst '#' cs with
  | some (name, numeral) =>
    match word32? numeral with
    | some n => .ok (name, n)
    | none => .error (.badDescendancy whole)
  | none => .ok (cs, 0)

/-- The namespace prefix and the local name of a qualified name. -/
def parseName (whole : String) (cs : List Char) : Except TagError (Option String × String) :=
  match cutFirst ':' cs with
  | some (qualifier, localName) => do
    checkName whole qualifier
    checkName whole localName
    .ok (some (String.ofList qualifier), String.ofList localName)
  | none => do
    checkName whole cs
    .ok (none, String.ofList cs)

/-- Whether a text has the mark of an attribute, and the text without it. -/
def parseMark : List Char → Bool × List Char
  | '@' :: cs => (true, cs)
  | cs => (false, cs)

/-- The tag that a text denotes. Its parts are checked from the last to the first. -/
def parse (s : String) : Except TagError Tag := do
  let (isAttribute, cs) := parseMark s.toList
  let (cs, variant) ← parseVariant s cs
  let (cs, descendancy) ← parseDescendancy s cs
  let (qualifier, localName) ← parseName s cs
  .ok { isAttribute, qualifier, localName, descendancy, variant }

end Crosswalk.Tag
