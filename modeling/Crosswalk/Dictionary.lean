import Crosswalk.SortedMap
import Crosswalk.Vocabulary
import Crosswalk.Text.Blank
import Crosswalk.Text.Case

/-!
Dictionaries: tables from source values to the terms that stand for them in the output. Values are
compared without the blanks around them, and an entry with an empty term still awaits a decision, so
it answers no lookup. Entries are listed in the order of their values.
-/

namespace Crosswalk

/-- The form in which source values are compared: without the blanks around them. -/
def normalize (value : String) : String := Text.trim value

/-- The values observed at source paths. -/
structure Observations where
  entries : List (Path × List String)
  deriving DecidableEq, Repr

/-- The values observed at a path: those of the last entry for it, or none. -/
def Observations.valuesAt (o : Observations) (p : Path) : List String :=
  (o.entries.reverse.lookup p).getD []

/-- A table from normalized source values to terms. -/
structure Dictionary where
  table : SortedMap String String
  deriving DecidableEq, Repr, Inhabited

namespace Dictionary

/-- The dictionary without entries. -/
def empty : Dictionary := ⟨.empty⟩

/-- The entries in the order of their values. -/
def toList (d : Dictionary) : List (String × String) := d.table.toList

/-- The number of entries. -/
def size (d : Dictionary) : Nat := d.table.size

/-- Whether there is no entry. -/
def isEmpty (d : Dictionary) : Bool := d.table.isEmpty

/-- Whether a choice is named by a text: by its value or its key, in any case of ASCII letters. -/
def names (text : String) (c : Choice) : Bool :=
  Text.eqIgnoringCase c.value text || c.key.any (Text.eqIgnoringCase · text)

/-- The term that a normalized value starts with: itself, or with a vocabulary the value of the
first choice it names, or nothing. -/
def initialTerm (vocabulary : Option Vocabulary) (value : String) : String :=
  match vocabulary with
  | none => value
  | some v => ((v.choices.find? (names value)).map Choice.value).getD ""

/-- Binds a value, returning its earlier term too. -/
def insert (d : Dictionary) (value term : String) : Dictionary × Option String :=
  (⟨d.table.insert (normalize value) term⟩, d.table.find? (normalize value))

/-- The dictionary of some pairs; a later pair of a value replaces an earlier one. -/
def ofPairs (pairs : List (String × String)) : Dictionary :=
  pairs.foldl (fun d e => (d.insert e.1 e.2).1) empty

/-- The dictionary of some observed values with their initial terms. Blank values are
dropped. -/
def ofValues (values : List String) (vocabulary : Option Vocabulary) : Dictionary :=
  ⟨SortedMap.ofList <| ((values.map normalize).filter (· ≠ "")).map
    fun value => (value, initialTerm vocabulary value)⟩

/-- The dictionary of the values now observed: known values keep their terms, new ones get
their initial ones, and the others are dropped. -/
def rebuild (d : Dictionary) (values : List String) (vocabulary : Option Vocabulary) :
    Dictionary :=
  ⟨(ofValues values vocabulary).table.mapValues fun value initial =>
    (d.table.find? value).getD initial⟩

/-- The term of a value, if it has one that is not empty. -/
def lookup? (d : Dictionary) (value : String) : Option String :=
  (d.table.find? (normalize value)).filter (· ≠ "")

/-- The entries with a given term. -/
def withTerm (d : Dictionary) (term : String) : Dictionary :=
  ⟨d.table.filter fun _ t => t == term⟩

/-- The values that await a decision. -/
def undecided (d : Dictionary) : List String :=
  (d.table.filter fun _ t => t == "").keys

/-- The entries whose term is not empty. -/
def decided (d : Dictionary) : List (String × String) :=
  (d.table.filter fun _ t => t != "").toList

end Dictionary

end Crosswalk
