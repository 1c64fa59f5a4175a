import Crosswalk.Text.Numeral

/-!
Character references: `&` and `;` around the name of one of five characters, or around `#` and a
character's number. Everything else of a text stands for itself, and a lone `&` is refused.
-/

namespace Crosswalk.Markup

/-- The value of a hexadecimal digit. -/
def hexDigit? (c : Char) : Option Nat :=
  if '0' ≤ c && c ≤ '9' then some (c.toNat - '0'.toNat)
  else if 'a' ≤ c && c ≤ 'f' then some (10 + c.toNat - 'a'.toNat)
  else if 'A' ≤ c && c ≤ 'F' then some (10 + c.toNat - 'A'.toNat)
  else none

/-- The value of a decimal digit. -/
def decimalDigit? (c : Char) : Option Nat :=
  if Text.isDigit c then some (c.toNat - '0'.toNat) else none

/-- The number that digits of a base denote after those read so far. -/
def number? (base : Nat) (digit? : Char → Option Nat) (sofar : Nat) : List Char → Option Nat
  | [] => some sofar
  | c :: cs =>
    match digit? c with
    | some d => number? base digit? (base * sofar + d) cs
    | none => none

/-- The character with a given number. There is none with number zero. -/
def charOfNumber? (n : Nat) : Option Char :=
  if n ≠ 0 ∧ n.isValidChar then some (Char.ofNat n) else none

/-- The character that the text between `&` and `;` refers to. A decimal number has at most seven
digits and a hexadecimal one at most six. -/
def referent? : List Char → Option Char
  | '#' :: 'x' :: digits =>
    if digits.length ≤ 6 then (number? 16 hexDigit? 0 digits).bind charOfNumber? else none
  | '#' :: digits =>
    if digits.length ≤ 7 then (number? 10 decimalDigit? 0 digits).bind charOfNumber? else none
  | name =>
    match String.ofList name with
    | "lt" => some '<'
    | "gt" => some '>'
    | "amp" => some '&'
    | "apos" => some '\''
    | "quot" => some '"'
    | _ => none

/-- A text with its references resolved, from within the reference whose characters so far are
given, last first, or from outside of one. -/
def unescapeFrom : Option (List Char) → List Char → Option (List Char)
  | none, [] => some []
  | some _, [] => none
  | none, c :: cs =>
    if c = '&' then unescapeFrom (some []) cs else (unescapeFrom none cs).map (c :: ·)
  | some name, c :: cs =>
    if c = ';' then
      match referent? name.reverse with
      | some d => (unescapeFrom none cs).map (d :: ·)
      | none => none
    else if c = '&' then none
    else unescapeFrom (some (c :: name)) cs

/-- A text with its references resolved. -/
def unescape? (cs : List Char) : Option String := (unescapeFrom none cs).map String.ofList

end Crosswalk.Markup
