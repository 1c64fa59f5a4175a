import Crosswalk.Path.Text

/-!
Diagnostics: an event with a severity, a wording and remarks about paths. A report shows the
remarks in order and names a path once for a run of remarks about it; a tally counts the reports
that were errors and those that were warnings.
-/

namespace Crosswalk

/-- How severe an event is, the worst first. -/
inductive Level where
  | internalError
  | error
  | warning
  | note
  | help
  deriving DecidableEq, Repr, Inhabited

namespace Level

/-- The word for a level. -/
def name : Level → String
  | internalError => "internal error"
  | error => "error"
  | warning => "warning"
  | note => "note"
  | help => "help"

end Level

/-- What is said about a path; without a label it only points there. -/
structure Remark where
  path : Path
  level : Level
  label : Option String
  deriving DecidableEq, Repr

/-- A reportable event. -/
structure Diagnostic where
  level : Level := .error
  message : String
  remarks : List Remark
  deriving DecidableEq, Repr

namespace Path

/-- An error at a path, with an explanation. -/
def errorRemark (p : Path) (label : String) : Remark := ⟨p, .error, some label⟩

/-- An error at a path. -/
def errorMark (p : Path) : Remark := ⟨p, .error, none⟩

/-- A warning about a path. -/
def warningRemark (p : Path) (label : String) : Remark := ⟨p, .warning, some label⟩

/-- Context for another remark. -/
def noteRemark (p : Path) (label : String) : Remark := ⟨p, .note, some label⟩

/-- Advice about a path. -/
def helpRemark (p : Path) (label : String) : Remark := ⟨p, .help, some label⟩

end Path

namespace Remark

/-- The remark followed by advice about the same path. -/
def withHelp (r : Remark) (label : String) : List Remark := [r, r.path.helpRemark label]

/-- The line that names the path, unless the remark before was about the same one. -/
def pathLine (before : Option Path) (r : Remark) : String :=
  if before = some r.path then "" else "  --> " ++ r.path.text ++ "\n"

/-- The line that explains the remark. -/
def labelLine (r : Remark) : String :=
  match r.label with
  | some label => "   = " ++ r.level.name ++ ": " ++ label ++ "\n"
  | none => ""

/-- The lines of some remarks after one about `before`. -/
def lines (before : Option Path) : List Remark → String
  | [] => ""
  | r :: rest => r.pathLine before ++ r.labelLine ++ lines (some r.path) rest

end Remark

/-- The text of a diagnostic. -/
def Diagnostic.report (d : Diagnostic) : String :=
  d.level.name ++ ": " ++ d.message ++ "\n" ++ Remark.lines none d.remarks

/-- The numbers of errors and of warnings reported. -/
structure Tally where
  errors : Nat := 0
  warnings : Nat := 0
  deriving DecidableEq, Repr

namespace Tally

/-- Counts one more report of a given level. -/
def count (t : Tally) : Level → Tally
  | .internalError | .error => { t with errors := t.errors + 1 }
  | .warning => { t with warnings := t.warnings + 1 }
  | .note | .help => t

/-- Whether an error was reported. -/
def hasErrors (t : Tally) : Bool := decide (0 < t.errors)

end Tally

end Crosswalk
