import AcornCatalog.Declaration.Kind
import AcornCatalog.Json
import AcornCatalog.SourcePath

/-! Declarations: what a source file declares, with the text it was read from. -/

namespace AcornCatalog

/-- Where a declaration starts; lines count from one. -/
structure Location where
  file : SourcePath
  line : Int
  deriving DecidableEq, Repr

/-- What every declaration carries. `source` is its full text, `uuid` tells it apart from all others, and the names in
    `dependencies` and `identifiers` are sorted and distinct. -/
structure Item where
  name : String
  kind : Kind
  source : String
  location : Option Location := none
  dependencies : List String := []
  identifiers : List String := []
  uuid : Option String := none
  identifierName : Option String := none
  deriving DecidableEq, Repr

/-- A theorem or a postulate: its head up to the closing brace, its proof, and both together. -/
structure Statement extends Item where
  head : String := ""
  proof : String := ""
  raw : String := ""
  deriving DecidableEq, Repr

/-- A function or a constant. -/
structure Definition extends Item where
  signature : String := ""
  body : String := ""
  returnType : Option String := none
  deriving DecidableEq, Repr

/-- A member of a class; a field has no body. -/
structure ClassMember where
  name : String
  kind : MemberKind
  signature : String
  body : Option String := none
  source : String := ""
  deriving DecidableEq, Repr

/-- An entry in the member list of a class: a member, or a loose record of which at most a name is known. -/
inductive ClassEntry where
  | member (m : ClassMember)
  | loose (record : Json)

/-- A class of types with the parameter that stands for its instances, its parents and its members. -/
structure TypeClass extends Item where
  typeParam : String := "Self"
  parents : List String := []
  members : List ClassEntry := []

/-- A structure with named fields and possibly a constraint on them. -/
structure StructureType extends Item where
  typeParams : List String := []
  fields : List (String × String) := []
  constraint : Option String := none
  deriving DecidableEq, Repr

/-- An inductive type. -/
structure InductiveType extends Item where
  typeParams : List String := []
  constructors : List (String × Option String) := []
  deriving DecidableEq, Repr

/-- Definitions that belong to a type. -/
structure AttributesBlock extends Item where
  targetType : String := ""
  members : List Definition := []
  deriving DecidableEq, Repr

/-- A type made an instance of a class by bindings for the members of the class. -/
structure InstanceBlock extends Item where
  typeName : String := ""
  className : String := ""
  members : List Definition := []
  deriving DecidableEq, Repr

/-- A declaration of any sort; `plain` has nothing beyond what all have. -/
inductive Declaration where
  | plain (d : Item)
  | statement (d : Statement)
  | definition (d : Definition)
  | typeClass (d : TypeClass)
  | structureType (d : StructureType)
  | inductiveType (d : InductiveType)
  | attributesBlock (d : AttributesBlock)
  | instanceBlock (d : InstanceBlock)

/-- A statement that comes without a kind is a theorem if it has a proof and a postulate if not. -/
def Statement.withKind (d : Statement) : Statement :=
  if d.kind.label = "" then { d with kind := if d.proof = "" then .postulate else .proposition } else d

/-- The name of an entry. A loose record need not have one, and what it has need not be a text. -/
def ClassEntry.name? : ClassEntry → Option String
  | .member m => some m.name
  | .loose record => (record.field? "name").map Json.shown

namespace Declaration

/-- What the declaration has in common with all others. -/
def item : Declaration → Item
  | .plain d => d
  | .statement d => d.toItem
  | .definition d => d.toItem
  | .typeClass d => d.toItem
  | .structureType d => d.toItem
  | .inductiveType d => d.toItem
  | .attributesBlock d => d.toItem
  | .instanceBlock d => d.toItem

/-- Changes what the declaration has in common with all others. -/
def modify (f : Item → Item) : Declaration → Declaration
  | .plain d => .plain (f d)
  | .statement d => .statement { d with toItem := f d.toItem }
  | .definition d => .definition { d with toItem := f d.toItem }
  | .typeClass d => .typeClass { d with toItem := f d.toItem }
  | .structureType d => .structureType { d with toItem := f d.toItem }
  | .inductiveType d => .inductiveType { d with toItem := f d.toItem }
  | .attributesBlock d => .attributesBlock { d with toItem := f d.toItem }
  | .instanceBlock d => .instanceBlock { d with toItem := f d.toItem }

/-- The name of a declaration. -/
def name (d : Declaration) : String := d.item.name

/-- The name of a declaration within its module. -/
def qualifiedName (moduleName : String) (d : Declaration) : String := moduleName ++ "." ++ d.name

end Declaration

/-- An import line: the names it brings in, and the module they come from if it says so. -/
structure Import where
  fromModule : Option String
  names : List String
  source : String
  deriving DecidableEq, Repr

end AcornCatalog
