/-!
Tags: the steps of a path. A tag is a qualified name that knows whether it names an attribute, how
deep a recurring tag of the same name sits, and which choice of a vocabulary it selects. Tags are
totally ordered, and the order says `eq` only of equal tags.
-/

namespace Crosswalk

/-- A qualified name of an element or attribute. -/
structure Tag where
  /-- Attributes and elements of one name are different tags. -/
  isAttribute : Bool := false
  /-- The namespace prefix. -/
  qualifier : Option String := none
  localName : String
  /-- The depth at which a recurring name sits; zero is not written. -/
  descendancy : UInt32 := 0
  /-- The key of the choice that this tag selects. -/
  variant : Option String := none
  deriving DecidableEq, Repr, Inhabited

namespace Tag

/-- An element tag. -/
def elem (qualifier : Option String) (localName : String) : Tag := { qualifier, localName }

/-- An attribute tag. -/
def attr (qualifier : Option String) (localName : String) : Tag :=
  { isAttribute := true, qualifier, localName }

/-- The name with its namespace prefix, and nothing else of the tag. -/
def qname (t : Tag) : String :=
  match t.qualifier with
  | some q => q ++ ":" ++ t.localName
  | none => t.localName

/-- The tag that selects the choice with a given key. -/
def withVariant (t : Tag) (key : String) : Tag := { t with variant := some key }

/-- The tag without its variant key. -/
def withoutVariant (t : Tag) : Tag := { t with variant := none }

/-- Whether two tags agree in all but their variant keys. -/
def sameName (t u : Tag) : Bool := t.withoutVariant == u.withoutVariant

/-- Qualified tags come first, then elements before attributes, then names, descendancies and
variant keys decide in this order. -/
protected def compare : Tag → Tag → Ordering :=
  compareLex (compareOn fun t => t.qualifier.isNone) <|
  compareLex (compareOn isAttribute) <|
  compareLex (compareOn qualifier) <|
  compareLex (compareOn localName) <|
  compareLex (compareOn descendancy) (compareOn variant)

instance : Ord Tag := ⟨Tag.compare⟩

instance : Std.TransOrd Tag :=
  inferInstanceAs (Std.TransCmp (compareLex _ (compareLex _ (compareLex _ (compareLex _
    (compareLex _ _))))))

theorem eq_of_compare {t u : Tag} (h : compare t u = .eq) : t = u := by
  have h : Tag.compare t u = .eq := h
  simp only [Tag.compare, compareLex_eq_eq, compareOn, Std.compare_eq_iff_eq] at h
  obtain ⟨-, hattr, hqual, hlocal, hdesc, hvar⟩ := h
  cases t; cases u; simp_all

instance : Std.LawfulEqOrd Tag where
  eq_of_compare := eq_of_compare

end Tag

end Crosswalk
