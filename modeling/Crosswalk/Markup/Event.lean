/-!
Markup as a sequence of events, and the content that the events describe. Content is a tree that
ends where the document breaks off, so it can be read from front to back as far as it goes.
-/

namespace Crosswalk.Markup

/-- A start tag: the element's name and its attributes in document order. -/
structure Head where
  name : String
  attributes : List (String × String)
  deriving DecidableEq, Repr

/-- The value of an attribute. -/
def Head.get? (h : Head) (key : String) : Option String := h.attributes.lookup key

/-- What stands in a document. -/
inductive Event where
  | opening (head : Head)
  | closing
  /-- The tag of an element without content, that opens and closes it. -/
  | empty (head : Head)
  | text (s : String)
  /-- A comment, a declaration, an instruction or a document type. -/
  | aside
  /-- Something that is not well-formed; what follows it is not read. -/
  | malformed
  deriving DecidableEq, Repr

/-- Why a document breaks off. -/
inductive Fault where
  /-- It ends. -/
  | ended
  /-- It is not well-formed from there on. -/
  | malformed
  deriving DecidableEq, Repr

/-- What stands in an element up to its end tag, or up to where the document breaks off. -/
inductive Content where
  /-- The end tag of the element around. -/
  | closed
  | cut (fault : Fault)
  | text (s : String) (rest : Content)
  | element (head : Head) (below rest : Content)
  deriving DecidableEq, Repr, Inhabited

namespace Content

/-- The contents that some events describe, innermost first: of the element open before the first
event, of the one around it, and so on, as far as the events reach. -/
def ofEvents : List Event → List Content
  | [] => []
  | .malformed :: _ => [.cut .malformed]
  | .text s :: es =>
    match ofEvents es with
    | [] => [.text s (.cut .ended)]
    | rest :: outer => .text s rest :: outer
  | .aside :: es => ofEvents es
  | .empty h :: es =>
    match ofEvents es with
    | [] => [.element h .closed (.cut .ended)]
    | rest :: outer => .element h .closed rest :: outer
  | .closing :: es => .closed :: ofEvents es
  | .opening h :: es =>
    match ofEvents es with
    | [] => [.element h (.cut .ended) (.cut .ended)]
    | [below] => [.element h below (.cut .ended)]
    | below :: rest :: outer => .element h below rest :: outer

/-- The content of a whole document, from its first element on. An end tag ahead of it closes
nothing. -/
def document : List Event → Content
  | [] => .cut .ended
  | .closing :: es | .text _ :: es | .aside :: es => document es
  | e :: es => (ofEvents (e :: es)).headD (.cut .ended)

end Content

end Crosswalk.Markup
