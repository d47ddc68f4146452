import AcornCatalog.Declaration.Basic
import AcornCatalog.OrderedMap

/-! The names that declarations define, and the indexes built from them. Where two declarations define one name, the
later one holds, at the place of the first. -/

namespace AcornCatalog

/-- The names of the members of a declaration, as they are written in it. -/
def Declaration.memberNames : Declaration → List String
  | .typeClass d => d.members.filterMap ClassEntry.name?
  | .attributesBlock d => d.members.map (·.name)
  | .instanceBlock d => d.members.map (·.name)
  | .structureType d => d.fields.map (·.1)
  | _ => []

/-- The names that a declaration defines: its own, and those of its members and fields behind it. -/
def Declaration.definedNames (d : Declaration) : List String :=
  d.name :: d.memberNames.map fun member => d.name ++ "." ++ member

namespace Identifier

/-- Each declaration under its own name. -/
def byName (ds : List Declaration) (index : OrderedMap Declaration) : OrderedMap Declaration :=
  index.insertAll (ds.map fun d => (d.name, d))

/-- Enters a declaration under its own name and under every name it defines. -/
def enter (m : OrderedMap Declaration) (d : Declaration) : OrderedMap Declaration :=
  (m.insert d.name d).insertAll (d.definedNames.map fun name => (name, d))

/-- Each declaration under every name it defines. -/
def index (ds : List Declaration) : OrderedMap Declaration := ds.foldl enter []

/-- The declaration that defines a name. -/
def definition? (name : String) (ds : List Declaration) : Option Declaration := (index ds).get? name

/-- Where a name is defined. -/
structure Origin where
  definedIn : String
  kind : Kind
  file : Option String
  line : Option Int
  deriving DecidableEq, Repr

/-- The origin of what a declaration defines. -/
def Origin.ofDeclaration (d : Declaration) : Origin :=
  { definedIn := d.name
    kind := d.item.kind
    file := d.item.location.map (·.file.text)
    line := d.item.location.map (·.line) }

/-- Enters the origin of what a declaration defines: under its own name, and then under the other names. -/
def enterOrigin (m : OrderedMap Origin) (d : Declaration) : OrderedMap Origin :=
  (m.insert d.name (.ofDeclaration d)).insertAll
    ((d.definedNames.filter (· != d.name)).map fun name => (name, .ofDeclaration d))

/-- The origin of every name that is defined. -/
def origins (ds : List Declaration) : OrderedMap Origin := ds.foldl enterOrigin []

end Identifier

end AcornCatalog
