import Crosswalk.Markup.Event
import Crosswalk.Markup.Reference
import Crosswalk.Text.Blank
import Crosswalk.Text.Case
import Crosswalk.Text.Split

/-!
Scanning the text of a document into events. Text between two pieces of markup is trimmed before its
references are resolved, and dropped if nothing is left. End tags have to match the elements they
close. A text may come in blocks of equal length, which only document types take notice of.
-/

namespace Crosswalk.Markup

open Text

/-- The characters that are blank in markup. -/
def isSpace (c : Char) : Bool := c == ' ' || c == '\t' || c == '\n' || c == '\r'

/-- The parts before and after the first place where `mark` stands. -/
def cutAt (mark : List Char) : List Char → Option (List Char × List Char)
  | [] => none
  | c :: cs =>
    if mark.isPrefixOf (c :: cs) then some ([], (c :: cs).drop mark.length)
    else (cutAt mark cs).map fun (before, after) => (c :: before, after)

/-- Whether a text starts with `mark`, whatever the case of its ASCII letters. -/
def startsWithIgnoringCase (mark : String) (cs : List Char) : Bool :=
  eqIgnoringCase (String.ofList (cs.take mark.length)) mark

/-- The inside of a tag and what follows its `>`. Within quotes a `>` does not end the tag; the
quote that is open, if any, is given. -/
def takeTag : Option Char → List Char → List Char × List Char
  | _, [] => ([], [])
  | none, c :: cs =>
    if c = '>' then ([], cs)
    else
      let (inside, rest) := takeTag (if c = '"' ∨ c = '\'' then some c else none) cs
      (c :: inside, rest)
  | some quote, c :: cs =>
    let (inside, rest) := takeTag (if c = quote then none else some quote) cs
    (c :: inside, rest)

/-- The inside of a document type and what follows its `>`. Each `<` in it needs a `>` of its own in
the same block; given are how far into the text it is and the number of those still open. -/
def takeDocumentType (block : Nat) : Nat → Nat → List Char → Option (List Char × List Char)
  | _, _, [] => none
  | offset, depth, c :: cs =>
    if c = '>' ∧ depth = 0 then some ([], cs)
    else
      let next := offset + c.utf8Size
      let depth := if c = '<' then depth + 1 else if c = '>' then depth - 1 else depth
      let depth := if next / block = offset / block then depth else 0
      (takeDocumentType block next depth cs).map fun (inside, rest) => (c :: inside, rest)

/-- The key and the value of the attribute at the front of a text, and what follows it. -/
def takeAttribute : List Char → Option (List Char × List Char × List Char)
  | [] => none
  | c :: cs =>
    let (key, rest) := cs.span fun d => d != '=' && !isSpace d
    match rest.dropWhile isSpace with
    | '=' :: rest =>
      match rest.dropWhile isSpace with
      | quote :: rest =>
        if quote = '"' ∨ quote = '\'' then
          (cutFirst quote rest).map fun (value, rest) => (c :: key, value, rest)
        else none
      | [] => none
    | _ => none

/-- The attributes of a start tag, of which at most `limit` are read. None may be repeated. -/
def attributes? (seen : List String) : Nat → List Char → Option (List (String × String))
  | 0, _ => some []
  | limit + 1, cs =>
    match cs.dropWhile isSpace with
    | [] => some []
    | c :: cs => do
      let (key, value, rest) ← takeAttribute (c :: cs)
      let key := String.ofList key
      if key ∈ seen then none
      let value ← unescape? value
      let others ← attributes? (key :: seen) limit rest
      some ((key, value) :: others)

/-- A start tag with a given inside: its name reaches to the first blank. -/
def head? (inside : List Char) : Option Head := do
  let (name, rest) := inside.span fun c => !isSpace c
  let attributes ← attributes? [] rest.length rest
  some { name := String.ofList name, attributes }

/-- The bytes of a text and of each block of it; blocks of no bytes stand for a text in one block. -/
structure Extent where
  total : Nat
  block : Nat
  deriving DecidableEq, Repr

/-- How far into the text its last characters begin. -/
def Extent.offset (x : Extent) (cs : List Char) : Nat := x.total - (String.ofList cs).utf8ByteSize

/-- What one piece of markup comes to: its events, the names of the elements open after it, the
innermost first, and the text that follows. -/
structure Piece where
  events : List Event
  names : List String
  rest : List Char

/-- A piece of markup of which nothing is read. -/
def Piece.aside (names : List String) (rest : List Char) : Piece := ⟨[.aside], names, rest⟩

/-- What starts with `<!`: a comment, character data or a document type. -/
def declaration? (x : Extent) (names : List String) (cs : List Char) : Option Piece :=
  match cs with
  | '-' :: '-' :: cs => do
    let (_, rest) ← cutAt ['-', '-', '>'] cs
    some (.aside names rest)
  | '[' :: _ => do
    let (data, rest) ← cutAt [']', ']', '>'] cs
    if startsWithIgnoringCase "[CDATA[" data then
      some ⟨[.text (String.ofList (data.drop 7))], names, rest⟩
    else none
  | _ => do
    let (inside, rest) ← takeDocumentType x.block (x.offset cs) 0 cs
    if startsWithIgnoringCase "DOCTYPE" inside && !(inside.drop 7).all isSpace then
      some (.aside names rest)
    else none

/-- What starts with `<?`: an instruction that ends with `?>`. -/
def instruction? (names : List String) (cs : List Char) : Option Piece :=
  let (inside, rest) := cs.span (· != '>')
  if inside.length ≥ 2 && inside.getLast? == some '?' then some (.aside names (rest.drop 1))
  else none

/-- What starts with `</`: the end of the innermost open element. -/
def endTag? (names : List String) (cs : List Char) : Option Piece :=
  let (inside, rest) := cs.span (· != '>')
  match names with
  | [] => none
  | name :: names =>
    if String.ofList (dropEnd isSpace inside) == name then
      some ⟨[.closing], names, rest.drop 1⟩
    else none

/-- A start tag. One that ends with `/` also ends its element. -/
def startTag? (names : List String) (cs : List Char) : Option Piece :=
  let (inside, rest) := takeTag none cs
  if inside.getLast? == some '/' then do
    let head ← head? inside.dropLast
    some ⟨[.empty head], names, rest⟩
  else do
    let head ← head? inside
    some ⟨[.opening head], head.name :: names, rest⟩

/-- What starts with `<`. -/
def markup? (x : Extent) (names : List String) (cs : List Char) : Option Piece :=
  match cs with
  | [] => some ⟨[], names, []⟩
  | '!' :: cs => declaration? x names cs
  | '?' :: cs => instruction? names cs
  | '/' :: cs => endTag? names cs
  | cs => startTag? names cs

/-- What stands before the next `<`; the first character is no blank. -/
def characters? (names : List String) (cs : List Char) : Option Piece := do
  let (inside, rest) := cs.span (· != '<')
  let s ← unescape? (dropEnd isSpace inside)
  some ⟨[.text s], names, rest⟩

/-- The next piece of a document after some blanks. -/
def piece? (x : Extent) (names : List String) (cs : List Char) : Option Piece :=
  match cs with
  | '<' :: cs => markup? x names cs
  | cs => characters? names cs

/-- The events of at most `limit` pieces of a document. -/
def scanPieces (x : Extent) : Nat → List String → List Char → List Event
  | 0, _, _ => []
  | limit + 1, names, cs =>
    match cs.dropWhile isSpace with
    | [] => []
    | c :: cs =>
      match piece? x names (c :: cs) with
      | some p => p.events ++ scanPieces x limit p.names p.rest
      | none => [.malformed]

/-- A text without the mark of its byte order. -/
def dropByteOrderMark : List Char → List Char
  | '\ufeff' :: cs => cs
  | cs => cs

/-- The events of a document that comes in blocks of some bytes. Every piece of it takes a character
at least. -/
def scanBlocks (block : Nat) (s : String) : List Event :=
  let cs := dropByteOrderMark s.toList
  scanPieces ⟨s.utf8ByteSize, block⟩ cs.length [] cs

/-- The events of a document. -/
def scan (s : String) : List Event := scanBlocks 0 s

end Crosswalk.Markup
