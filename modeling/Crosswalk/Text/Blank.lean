/-!
Blank characters and trimming. The class is the Unicode property `White_Space`; trimming removes
blanks at an end of a text and nothing else.
-/

namespace Crosswalk.Text

/-- The characters with the Unicode property `White_Space`. -/
def isBlank (c : Char) : Bool :=
  (9 ≤ c.toNat && c.toNat ≤ 13) || c.toNat == 0x20 || c.toNat == 0x85 || c.toNat == 0xA0
    || c.toNat == 0x1680 || (0x2000 ≤ c.toNat && c.toNat ≤ 0x200A) || c.toNat == 0x2028
    || c.toNat == 0x2029 || c.toNat == 0x202F || c.toNat == 0x205F || c.toNat == 0x3000

/-- Drops the longest run of characters of a class from the end. -/
def dropEnd (p : Char → Bool) : List Char → List Char
  | [] => []
  | c :: cs =>
    match dropEnd p cs with
    | [] => if p c then [] else [c]
    | d :: ds => c :: d :: ds

/-- Drops the trailing blanks. -/
def trimEnd (cs : List Char) : List Char := dropEnd isBlank cs

/-- Drops the characters of a class from both ends. -/
def strip (p : Char → Bool) (cs : List Char) : List Char := dropEnd p (cs.dropWhile p)

/-- Drops the blanks at both ends. -/
def trim (s : String) : String := String.ofList (strip isBlank s.toList)

/-- A text of blanks only. -/
def allBlank (cs : List Char) : Bool := cs.all isBlank

end Crosswalk.Text
