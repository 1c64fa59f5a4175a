import Crosswalk.Text.Case

/-!
Operators: what becomes of several matches of one source path. They iterate over the matches, join
their texts with a delimiter, or bind the whole collection.
-/

namespace Crosswalk

/-- How the matches of a source path are combined. -/
inductive Operator where
  /-- Iterate over every match. -/
  | all
  /-- Iterate over the first match only. -/
  | first
  | comma
  | semicolon
  | space
  | pipe
  /-- Bind the whole collection. -/
  | array
  deriving DecidableEq, Repr, Inhabited

namespace Operator

/-- Every operator. -/
def every : List Operator := [all, first, comma, semicolon, space, pipe, array]

/-- The text between joined values. -/
def delimiter? : Operator → Option String
  | comma => some ", "
  | semicolon => some "; "
  | space => some " "
  | pipe => some " | "
  | all | first | array => none

/-- Whether the body of a scope runs once for each match. -/
def iterates : Operator → Bool
  | all | first => true
  | _ => false

/-- The name in record definitions and on the command line. -/
def name : Operator → String
  | all => "all"
  | first => "first"
  | comma => "comma"
  | semicolon => "semicolon"
  | space => "space"
  | pipe => "pipe"
  | array => "array"

instance : ToString Operator := ⟨name⟩

end Operator

/-- A name that no operator has. -/
structure UnknownOperator where
  name : String
  deriving DecidableEq, Repr

/-- The wording of the error. -/
def UnknownOperator.message (e : UnknownOperator) : String := "unknown operator `" ++ e.name ++ "`"

/-- The operator with a given name, whatever the case of its ASCII letters. -/
def Operator.parse (s : String) : Except UnknownOperator Operator :=
  match every.find? fun op => op.name == Text.asciiLower s with
  | some op => .ok op
  | none => .error ⟨s⟩

end Crosswalk
