import AcornCatalog.Store.Row
import AcornCatalog.Store.Search

/-! The store: four tables, any of which may be missing. Rows are only ever added. What cannot be added leaves the store
as it was, so an operation gives a fault or the store it leads to. -/

namespace AcornCatalog

/-- The tables of the store. -/
inductive Table where
  | items
  | theorems
  | definitions
  | dependencies
  deriving DecidableEq, Repr

/-- The name of a table. -/
def Table.label : Table → String
  | .items => "items"
  | .theorems => "theorems"
  | .definitions => "definitions"
  | .dependencies => "dependencies"

/-- What a table holds, in the singular. -/
def Table.noun : Table → String
  | .items => "Item"
  | .theorems => "Theorem"
  | .definitions => "Definition"
  | .dependencies => "Dependency"

/-- What the engine of the store can object to in a statement. -/
inductive Objection where
  | missingTable (table : Table)
  | longPattern
  deriving DecidableEq, Repr

/-- The wording of an objection. -/
def Objection.message : Objection → String
  | .missingTable table => "no such table: " ++ table.label
  | .longPattern => "LIKE or GLOB pattern too complex"

/-- Why an operation on the store fails. A row that breaks any rule of its table counts as one whose name is taken. -/
inductive Fault where
  | engine (objection : Objection)
  | taken (table : Table) (name : Option String)
  | integerRange
  | limitTooSmall
  | limitTooLarge
  deriving DecidableEq, Repr

/-- The name of `Fault.engine` from when a missing table was all that was objected to. -/
@[deprecated Fault.engine (since := "2026-11-16"), match_pattern]
abbrev Fault.missingTable (objection : Objection) : Fault := .engine objection

/-- The most rows that one listing may ask for. -/
def maxPageSize : Nat := 100

/-- The wording of a fault. -/
def Fault.message : Fault → String
  | .engine objection => objection.message
  | .taken table name => table.noun ++ " with name '" ++ name.getD "None" ++ "' already exists"
  | .integerRange => "Python int too large to convert to SQLite INTEGER"
  | .limitTooSmall => "Limit must be at least 1"
  | .limitTooLarge => s!"Limit cannot exceed {maxPageSize}"

/-- The dependencies, and how many times one has been put forward; each time uses up an id. -/
structure DependencyTable where
  rows : List DependencyRow := []
  attempts : Nat := 0
  deriving DecidableEq, Repr

/-- The tables, each with its rows in the order in which they came. -/
structure Store where
  items : Option (List ItemRow) := none
  theorems : Option (List TheoremRow) := none
  definitions : Option (List DefinitionRow) := none
  dependencies : Option DependencyTable := none
  deriving DecidableEq, Repr

/-- An item put forward for the store. -/
structure NewItem where
  name : Option String
  kind : Option String
  source : Option String
  uuid : Option String := none
  identifierName : Option String := none
  filePath : Option String := none
  lineNumber : Option Int := none
  deriving DecidableEq, Repr

/-- A theorem put forward for the store. -/
structure NewTheorem where
  name : Option String
  head : Option String
  proof : Option String
  raw : Option String
  filePath : Option String := none
  lineNumber : Option Int := none
  deriving DecidableEq, Repr

/-- A definition put forward for the store. -/
structure NewDefinition where
  name : Option String
  definition : Option String
  kind : Option String := none
  filePath : Option String := none
  lineNumber : Option Int := none
  deriving DecidableEq, Repr

/-- A dependency put forward for the store. -/
structure NewDependency where
  sourceName : Option String
  sourceType : Option String
  targetName : Option String
  dependencyType : Option String
  deriving DecidableEq, Repr

/-- Whether a number can be stored: it has to fit 64 bits with a sign. -/
def storable (n : Option Int) : Bool := n.all fun n => -9223372036854775808 ≤ n && n ≤ 9223372036854775807

/-- A table that must be there. -/
def demand {α : Type} (table : Table) : Option α → Except Fault α
  | some rows => .ok rows
  | none => .error (.engine (.missingTable table))

namespace Store

/-- Makes the items table if there is none. -/
def init (s : Store) : Store := { s with items := some (s.items.getD []) }

/-- An empty store with the tables of theorems, definitions and dependencies. -/
def withStatements : Store := { theorems := some [], definitions := some [], dependencies := some {} }

/-- Adds a row to a table whose rows are checked: the table has to be there, the line number has to be storable, and
    `row?` has to make a row of what is put forward. -/
def insertRow {α : Type} (table : Table) (rows : Option (List α)) (line : Option Int) (name : Option String)
    (row? : List α → Option α) (put : List α → Store) : Except Fault (α × Store) :=
  match rows with
  | none => .error (.engine (.missingTable table))
  | some rows =>
    if storable line then
      match row? rows with
      | none => .error (.taken table name)
      | some row => .ok (row, put (rows ++ [row]))
    else .error .integerRange

/-- The row an item becomes, if it keeps the rules: name, kind, source and file are given, and neither its uuid nor its
    name within its file is there already. -/
def itemRow? (rows : List ItemRow) (clock : String) (new : NewItem) : Option ItemRow := do
  let name ← new.name
  let kind ← new.kind
  let source ← new.source
  let filePath ← new.filePath
  if rows.any fun r => (new.uuid.isSome && r.uuid == new.uuid) || (r.filePath == filePath && r.name == name) then none
  else return { id := rows.length + 1, uuid := new.uuid, name, identifierName := new.identifierName, kind, source,
                filePath, lineNumber := new.lineNumber, createdAt := clock }

/-- Adds an item. -/
def addItem (clock : String) (new : NewItem) (s : Store) : Except Fault (ItemRow × Store) :=
  insertRow .items s.items new.lineNumber new.name (itemRow? · clock new) fun rows => { s with items := some rows }

/-- The row a theorem becomes, if all its texts are given and its name is free. -/
def theoremRow? (rows : List TheoremRow) (clock : String) (new : NewTheorem) : Option TheoremRow := do
  let name ← new.name
  let head ← new.head
  let proof ← new.proof
  let raw ← new.raw
  if rows.any (·.name == name) then none
  else return { id := rows.length + 1, name, head, proof, raw, filePath := new.filePath, lineNumber := new.lineNumber,
                createdAt := clock }

/-- Adds a theorem. -/
def addTheorem (clock : String) (new : NewTheorem) (s : Store) : Except Fault (TheoremRow × Store) :=
  insertRow .theorems s.theorems new.lineNumber new.name (theoremRow? · clock new)
    fun rows => { s with theorems := some rows }

/-- The row a definition becomes, if its texts are given and its name is free. -/
def definitionRow? (rows : List DefinitionRow) (clock : String) (new : NewDefinition) : Option DefinitionRow := do
  let name ← new.name
  let definition ← new.definition
  if rows.any (·.name == name) then none
  else return { id := rows.length + 1, name, definition, kind := new.kind, filePath := new.filePath,
                lineNumber := new.lineNumber, createdAt := clock }

/-- Adds a definition. -/
def addDefinition (clock : String) (new : NewDefinition) (s : Store) : Except Fault (DefinitionRow × Store) :=
  insertRow .definitions s.definitions new.lineNumber new.name (definitionRow? · clock new)
    fun rows => { s with definitions := some rows }

/-- The row a dependency becomes, if all its parts are given and none there is like it but for the type of its
    source. -/
def dependencyRow? (t : DependencyTable) (new : NewDependency) : Option DependencyRow := do
  let sourceName ← new.sourceName
  let sourceType ← new.sourceType
  let targetName ← new.targetName
  let dependencyType ← new.dependencyType
  if t.rows.any fun r =>
      r.sourceName == sourceName && r.targetName == targetName && r.dependencyType == dependencyType then none
  else return { id := t.attempts + 1, sourceName, sourceType, targetName, dependencyType }

/-- Adds a dependency. One that cannot be added is passed over in silence. -/
def addDependency (new : NewDependency) (s : Store) : Except Fault Store := do
  let t ← demand .dependencies s.dependencies
  let rows := t.rows ++ (dependencyRow? t new).toList
  return { s with dependencies := some { rows, attempts := t.attempts + 1 } }

end Store

end AcornCatalog
