/-!
Literals of the generated script: text between single quotes, with a backslash before each quote
and backslash and `\n` for a line feed. A name stands bare if it is a plain identifier.
-/

namespace Crosswalk.Text

/-- Whether `c` is an ASCII letter. -/
def isLetter (c : Char) : Bool := ('a' ≤ c && c ≤ 'z') || ('A' ≤ c && c ≤ 'Z')

/-- Whether `c` is an ASCII letter or digit. -/
def isLetterOrDigit (c : Char) : Bool := isLetter c || ('0' ≤ c && c ≤ '9')

/-- A text with its quotes, backslashes and line feeds escaped. -/
def escapeQuoted : List Char → List Char
  | [] => []
  | c :: cs =>
    if c = '\\' then '\\' :: '\\' :: escapeQuoted cs
    else if c = '\'' then '\\' :: '\'' :: escapeQuoted cs
    else if c = '\n' then '\\' :: 'n' :: escapeQuoted cs
    else c :: escapeQuoted cs

/-- A text as a quoted literal. -/
def quote (s : String) : String := String.ofList ('\'' :: escapeQuoted s.toList ++ ['\''])

/-- Whether a name can stand bare: it starts with a letter or an underscore, and no other
characters but these and digits follow. -/
def isPlainName (s : String) : Bool :=
  match s.toList with
  | [] => false
  | c :: cs => (isLetter c || c == '_') && cs.all fun d => isLetterOrDigit d || d == '_'

/-- A name in the script: bare if it can be, otherwise quoted. -/
def identifier (s : String) : String := if isPlainName s then s else quote s

/-- A text with every character but ASCII letters and digits replaced by an underscore. -/
def sanitize (cs : List Char) : List Char := cs.map fun c => if isLetterOrDigit c then c else '_'

end Crosswalk.Text
