import AcornCatalog.Json

/-! The rows of the four tables, and their records with the columns in order. -/

namespace AcornCatalog

/-- A declaration of any kind, as kept in the catalog. -/
structure ItemRow where
  id : Nat
  uuid : Option String
  name : String
  identifierName : Option String
  kind : String
  source : String
  filePath : String
  lineNumber : Option Int
  createdAt : String
  deriving DecidableEq, Repr

/-- A theorem. -/
structure TheoremRow where
  id : Nat
  name : String
  head : String
  proof : String
  raw : String
  filePath : Option String
  lineNumber : Option Int
  createdAt : String
  deriving DecidableEq, Repr

/-- A definition. -/
structure DefinitionRow where
  id : Nat
  name : String
  definition : String
  kind : Option String
  filePath : Option String
  lineNumber : Option Int
  createdAt : String
  deriving DecidableEq, Repr

/-- A dependency of one named thing on another. -/
structure DependencyRow where
  id : Nat
  sourceName : String
  sourceType : String
  targetName : String
  dependencyType : String
  deriving DecidableEq, Repr

/-- The columns of an item, without the time it was added. -/
def ItemRow.columns (r : ItemRow) : List (String × Json) :=
  [("id", .int r.id), ("uuid", .ofText? r.uuid), ("name", .str r.name), ("identifier_name", .ofText? r.identifierName),
   ("kind", .str r.kind), ("source", .str r.source), ("file_path", .str r.filePath),
   ("line_number", .ofInt? r.lineNumber)]

/-- The columns of a theorem, without the time it was added. -/
def TheoremRow.columns (r : TheoremRow) : List (String × Json) :=
  [("id", .int r.id), ("name", .str r.name), ("theorem_head", .str r.head), ("proof", .str r.proof), ("raw", .str r.raw),
   ("file_path", .ofText? r.filePath), ("line_number", .ofInt? r.lineNumber)]

/-- The columns of a definition, without the time it was added. -/
def DefinitionRow.columns (r : DefinitionRow) : List (String × Json) :=
  [("id", .int r.id), ("name", .str r.name), ("definition", .str r.definition), ("kind", .ofText? r.kind),
   ("file_path", .ofText? r.filePath), ("line_number", .ofInt? r.lineNumber)]

/-- An item as a record. -/
def ItemRow.json (r : ItemRow) : Json := .obj (r.columns ++ [("created_at", .str r.createdAt)])

/-- A theorem as a record. -/
def TheoremRow.json (r : TheoremRow) : Json := .obj (r.columns ++ [("created_at", .str r.createdAt)])

/-- A definition as a record. -/
def DefinitionRow.json (r : DefinitionRow) : Json := .obj (r.columns ++ [("created_at", .str r.createdAt)])

/-- A dependency as a record. -/
def DependencyRow.json (r : DependencyRow) : Json :=
  .obj [("id", .int r.id), ("source_name", .str r.sourceName), ("source_type", .str r.sourceType),
        ("target_name", .str r.targetName), ("dependency_type", .str r.dependencyType)]

end AcornCatalog
