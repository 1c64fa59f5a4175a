/-!
Letter case. Only the ASCII letters have one here; every other character is its own small form.
-/

namespace Crosswalk.Text

/-- The text with its ASCII capitals made small. -/
def asciiLower (s : String) : String := String.ofList (s.toList.map Char.toLower)

/-- Whether two texts differ at most in the case of ASCII letters. -/
def eqIgnoringCase (s t : String) : Bool := asciiLower s == asciiLower t

end Crosswalk.Text
