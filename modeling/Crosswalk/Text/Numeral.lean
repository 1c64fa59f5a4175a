/-!
Decimal numerals of 32-bit numbers. Reading allows one leading plus sign and leading zeros, and
refuses a number that does not fit.
-/

namespace Crosswalk.Text

/-- Whether `c` is one of the ten ASCII digits. -/
def isDigit (c : Char) : Bool := '0' ≤ c && c ≤ '9'

/-- The number that ASCII digits denote after those read so far. -/
def digitsValue (sofar : Nat) : List Char → Nat
  | [] => sofar
  | c :: cs => digitsValue (10 * sofar + (c.toNat - '0'.toNat)) cs

/-- A plus sign in front of a numeral says nothing. -/
def dropPlus : List Char → List Char
  | '+' :: cs => cs
  | cs => cs

/-- The 32-bit number that a numeral denotes. -/
def word32? (cs : List Char) : Option UInt32 :=
  let digits := dropPlus cs
  if digits.isEmpty || !digits.all isDigit then none
  else if h : digitsValue 0 digits < UInt32.size then
    some (UInt32.ofNatLT (digitsValue 0 digits) h)
  else none

end Crosswalk.Text
