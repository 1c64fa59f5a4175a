import Crosswalk.Operator
import Crosswalk.Path

/-!
Programs of the transformation language. A block is a sequence of statements, and a statement that
opens a scope owns the block inside it; so the nesting of a program is that of its blocks.
-/

namespace Crosswalk

/-- An expression of the transformation language. -/
inductive Expression where
  | var (name : String)
  | literal (text : String)
  /-- Navigation from a variable through child tags. -/
  | nav (base : String) (steps : List Tag)
  /-- The texts of all matches with a delimiter between them. -/
  | joined (of : Expression) (delimiter : String)
  /-- The first match. -/
  | first (of : Expression)
  | call (function : String) (args : List Expression)
  /-- The children of a variable with some names as one collection. -/
  | mapJoin (base : String) (keys : List Tag)
  /-- The first that is not empty. -/
  | alternatives (of : List Expression)
  deriving Repr, Inhabited

/-- A condition of a guarded block. -/
inductive Condition where
  /-- The expression yields something. -/
  | present (e : Expression)
  /-- The output element has not been produced. -/
  | absent (t : Tag)
  deriving Repr

/-- A statement with nothing inside. -/
inductive Simple where
  | comment (text : String)
  | namespaceDecl (qualifier uri : String)
  /-- A static table. -/
  | table (name : String) (entries : List (String × String))
  /-- A function that normalizes its argument and consults a table. -/
  | lookup (name table : String)
  /-- The definition of a variable. -/
  | define (var : String) (value : Expression)
  /-- Authored code. -/
  | code (text : String)
  /-- A condition on the output document. -/
  | assertion (path : Path) (condition : String)
  deriving Repr

/-- The head of a statement with a block inside. -/
inductive Opening where
  /-- The block runs for each match, or for the first one only. -/
  | loop (var : String) (source : Expression) (first : Bool)
  /-- The block runs once if the value is not empty. -/
  | bind (var : String) (value : Expression)
  /-- A variable is defined as what the block yields for an argument. -/
  | compute (var param : String) (arg : Expression)
  | guarded (condition : Condition)
  /-- An element of the output. -/
  | element (tag : Tag) (attributes : List (Tag × Expression)) (value : Option Expression)
  /-- All that one mapping emits. -/
  | mapping (output input : Path)
  deriving Repr

/-- A sequence of statements. -/
inductive Block where
  | nil
  | simple (s : Simple) (rest : Block)
  | nested (o : Opening) (body rest : Block)
  deriving Repr, Inhabited

namespace Block

/-- The statements of one block followed by those of another. -/
def append : Block → Block → Block
  | nil, b => b
  | simple s rest, b => simple s (append rest b)
  | nested o body rest, b => nested o body (append rest b)

instance : Append Block := ⟨append⟩

/-- One statement. -/
def one (s : Simple) : Block := simple s nil

/-- One statement around a block. -/
def around (o : Opening) (body : Block) : Block := nested o body nil

/-- The statements of several blocks in turn. -/
def join : List Block → Block
  | [] => nil
  | b :: bs => b ++ join bs

/-- Some statements with nothing inside, in turn. -/
def ofSimple (ss : List Simple) : Block := join (ss.map one)

/-- Whether there is no statement. -/
def isEmpty : Block → Bool
  | nil => true
  | _ => false

/-- The scope that binds a variable to what an operator makes of a source. -/
def scope (op : Operator) (var : String) (source : Expression) (body : Block) : Block :=
  match op, op.delimiter? with
  | .all, _ => around (.loop var source false) body
  | .first, _ => around (.loop var source true) body
  | _, some delimiter => around (.bind var (.joined source delimiter)) body
  | _, none => around (.bind var source) body

/-- Whether a statement iterates or binds. -/
def bindsScope : Opening → Bool
  | .loop .. | .bind .. => true
  | _ => false

/-- The number of statements that iterate or bind, at any depth. -/
def scopeCount : Block → Nat
  | nil => 0
  | simple _ rest => scopeCount rest
  | nested o body rest => (if bindsScope o then 1 else 0) + scopeCount body + scopeCount rest

end Block

/-- A program: declarations, the construction of the output document, and what is checked and
noted afterwards. -/
structure Program where
  prologue : Block
  output : Block
  epilogue : Block
  deriving Repr

/-! ### Calls -/

mutual

/-- The functions that an expression calls, in order. -/
def Expression.calls : Expression → List String
  | .var _ | .literal _ | .nav .. | .mapJoin .. => []
  | .joined e _ => e.calls
  | .first e => e.calls
  | .call function args => function :: callsOfAll args
  | .alternatives es => callsOfAll es

/-- The functions that some expressions call, in order. -/
def Expression.callsOfAll : List Expression → List String
  | [] => []
  | e :: es => e.calls ++ callsOfAll es

end

/-- The functions that a condition calls. -/
def Condition.calls : Condition → List String
  | .present e => e.calls
  | .absent _ => []

/-- The functions that a statement with nothing inside calls. -/
def Simple.calls : Simple → List String
  | .define _ value => value.calls
  | _ => []

/-- The functions that the head of a statement calls. -/
def Opening.calls : Opening → List String
  | .loop _ source _ => source.calls
  | .bind _ value => value.calls
  | .compute _ _ arg => arg.calls
  | .guarded condition => condition.calls
  | .element _ attributes value =>
    Expression.callsOfAll (attributes.map Prod.snd) ++ Expression.callsOfAll value.toList
  | .mapping .. => []

/-- The functions that a block calls at any depth, in the order of the text. -/
def Block.calls : Block → List String
  | .nil => []
  | .simple s rest => s.calls ++ calls rest
  | .nested o body rest => o.calls ++ calls body ++ calls rest

end Crosswalk
