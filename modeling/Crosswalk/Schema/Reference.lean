import Crosswalk.Schema.Error
import Std.Data.HashMap

/-!
References between named definitions. Before anything is substituted, the definitions must have
distinct names within their kind, every reference inside a definition must name a definition, and
no definition may reach itself through references.
-/

namespace Crosswalk

/-- A kind and a name, which together identify a definition. -/
abbrev DefinitionKey := DefinitionKind × String

namespace DefinitionKey

/-- Keys are ordered by kind and then by name. -/
def compare : DefinitionKey → DefinitionKey → Ordering :=
  compareLex (compareOn fun k => k.1.rank) (compareOn Prod.snd)

end DefinitionKey

/-- The references within some content at a place, in document order, each with its own place. The
template of an element is referenced from the element. -/
def Content.references (place : Path) : Content → List (DefinitionKey × Path)
  | .nil => []
  | .attr _ rest => references place rest
  | .ref kind name rest => ((kind, name), place) :: references place rest
  | .elem e below rest =>
    (e.template.toList.map fun name => ((.template, name), place.child e.tag))
      ++ references (place.child e.tag) below ++ references place rest

namespace Definition

/-- What identifies the definition. -/
def key (d : Definition) : DefinitionKey := (d.kind, d.name)

/-- The place of what stands directly in a definition, before it is substituted anywhere. -/
def place (d : Definition) : Path := Path.root.child (Tag.elem (some d.kind.name) d.name)

/-- The references within a definition. -/
def references (d : Definition) : List (DefinitionKey × Path) := d.content.references d.place

end Definition

/-- What each of some definitions refers to. -/
abbrev Links := Std.HashMap DefinitionKey (List DefinitionKey)

namespace Links

/-- Taking a definition out leaves fewer. -/
theorem size_erase_lt {g : Links} {k : DefinitionKey} (h : k ∈ g) : (g.erase k).size < g.size := by
  have nonempty : g.size ≠ 0 := fun empty =>
    Std.HashMap.isEmpty_iff_forall_not_mem.1 (by simp [Std.HashMap.isEmpty_eq_size_eq_zero, empty])
      k h
  rw [Std.HashMap.size_erase, if_pos h]
  omega

/-- The links of the definitions that are not reached from some keys. A definition is taken out when
it is met, and what it refers to is met next; so each is met once, however the links run. -/
def unreached (g : Links) : List DefinitionKey → Links
  | [] => g
  | k :: ks =>
    if inside : k ∈ g then
      let next := g[k]
      unreached (g.erase k) (next ++ ks)
    else unreached g ks
termination_by ks => (g.size, ks.length)
decreasing_by
  · exact .left _ _ (size_erase_lt inside)
  · exact .right _ (Nat.lt_succ_self _)

/-- Whether a definition is reached from itself through one or more references. -/
def reachesItself (g : Links) (k : DefinitionKey) : Bool := !(k ∈ g.unreached (g.getD k []))

end Links

/-- The named definitions of a schema. -/
abbrev Definitions := List Definition

namespace Definitions

/-- The definition with a given key. -/
def find? (ds : Definitions) (k : DefinitionKey) : Option Definition :=
  List.find? (fun d => d.key == k) ds

/-- Accepts definitions with distinct keys, none of them among those seen. -/
def checkDistinct (seen : List DefinitionKey) : Definitions → Except SchemaError Unit
  | [] => .ok ()
  | d :: rest =>
    if d.key ∈ seen then .error (.duplicateDefinition d.kind d.name)
    else checkDistinct (d.key :: seen) rest

/-- Accepts references that all name definitions. -/
def checkNamed (ds : Definitions) : List (DefinitionKey × Path) → Except SchemaError Unit
  | [] => .ok ()
  | (k, place) :: rest =>
    if (ds.find? k).isSome then checkNamed ds rest
    else .error (.danglingReference place k.1 k.2)

/-- What each definition refers to. -/
def links (ds : Definitions) : Links :=
  Std.HashMap.ofList (ds.map fun d => (d.key, d.references.map Prod.fst))

/-- The definitions that reach themselves, in the order of their keys. -/
def cyclic (ds : Definitions) : List DefinitionKey :=
  ((ds.map Definition.key).filter ds.links.reachesItself).mergeSort
    fun k l => (DefinitionKey.compare k l).isLE

/-- Accepts definitions that can be substituted for the references to them. -/
def check (ds : Definitions) : Except SchemaError Unit := do
  checkDistinct [] ds
  checkNamed ds (ds.flatMap Definition.references)
  if ds.cyclic.isEmpty then .ok () else .error (.cyclicReferences ds.cyclic)

end Definitions

end Crosswalk
