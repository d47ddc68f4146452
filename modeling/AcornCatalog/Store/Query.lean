import AcornCatalog.Store.Basic

/-! Reading the store: single rows, counts, and listings by recency. The latest rows come first, and rows of one time in
the order in which they came. -/

namespace AcornCatalog.Store

/-- Rows from the latest to the earliest. -/
def latestFirst {α : Type} (createdAt : α → String) (rows : List α) : List α :=
  rows.mergeSort fun a b => decide (createdAt b ≤ createdAt a)

/-- Rows from the earliest to the latest. -/
def earliestFirst {α : Type} (createdAt : α → String) (rows : List α) : List α :=
  rows.mergeSort fun a b => decide (createdAt a ≤ createdAt b)

/-- Which rows a listing shows: at most `limit` of those that match, `offset` left out. -/
structure Listing where
  limit : Int
  offset : Int := 0
  query : Option String := none
  kind : Option String := none
  deriving DecidableEq, Repr

/-- A listing asks for at least one row and for no more than a page holds. -/
def Listing.check (l : Listing) : Except Fault Unit :=
  if l.limit < 1 then .error .limitTooSmall
  else if (maxPageSize : Int) < l.limit then .error .limitTooLarge
  else .ok ()

/-- The rows of a listing, given those that match from the latest on. An offset below zero leaves out none. -/
def Listing.cut {α : Type} (l : Listing) (rows : List α) : List α := (rows.drop l.offset.toNat).take l.limit.toNat

/-- An offset has to be storable. -/
def Listing.checkOffset (l : Listing) : Except Fault Unit :=
  if storable (some l.offset) then .ok () else .error .integerRange

/-- Whether a pattern is too long and there is a row to compare with it. -/
def overlong {α : Type} (query : Option String) (compared : List α) : Bool :=
  Search.tooLong query && !compared.isEmpty

/-- Comparing rows with a pattern that is too long is objected to. -/
def checkPattern {α : Type} (query : Option String) (compared : List α) : Except Fault Unit :=
  if overlong query compared then .error (.engine .longPattern) else .ok ()

/-! ### Searches -/

/-- How a table is searched: which texts of a row are compared with a query, and which rows are if a kind is asked
    for. -/
structure Searching (α : Type) where
  table : Table
  texts : α → List String
  allowed : Option String → α → Bool := fun _ _ => true
  createdAt : α → String

namespace Searching

/-- Whether a row is found by a query and allowed by a kind. -/
def selects {α : Type} (w : Searching α) (query kind : Option String) (r : α) : Bool :=
  Search.found query (w.texts r) && w.allowed kind r

/-- How many rows are selected. Only those that the kind allows are compared with the query. -/
def count {α : Type} (w : Searching α) (query kind : Option String) (rows : Option (List α)) : Except Fault Nat := do
  let rows ← demand w.table rows
  checkPattern query (rows.filter (w.allowed kind))
  return rows.countP (w.selects query kind)

/-- A listing of the rows that are selected. -/
def list {α : Type} (w : Searching α) (l : Listing) (rows : Option (List α)) : Except Fault (List α) := do
  l.check
  let rows ← demand w.table rows
  l.checkOffset
  checkPattern l.query (rows.filter (w.allowed l.kind))
  return l.cut (latestFirst w.createdAt (rows.filter (w.selects l.query l.kind)))

end Searching

/-! ### Items -/

/-- The first item of a name. -/
def item? (name : Option String) (s : Store) : Except Fault (Option ItemRow) := do
  let rows ← demand .items s.items
  return rows.find? fun r => some r.name == name

/-- The item with a uuid. -/
def itemByUuid? (uuid : Option String) (s : Store) : Except Fault (Option ItemRow) := do
  let rows ← demand .items s.items
  return rows.find? fun r => r.uuid.isSome && r.uuid == uuid

/-- Whether an item is of the kind that is asked for; no kind and the empty one allow all. -/
def ofKind (kind : Option String) (r : ItemRow) : Bool := kind.all fun k => k == "" || k == r.kind

/-- Items are searched by name and source. -/
def itemSearch : Searching ItemRow where
  table := .items
  texts r := [r.name, r.source]
  allowed := ofKind
  createdAt := (·.createdAt)

/-- How many items match. -/
def itemCount (query kind : Option String) (s : Store) : Except Fault Nat := itemSearch.count query kind s.items

/-- A listing of items. -/
def listItems (l : Listing) (s : Store) : Except Fault (List ItemRow) := itemSearch.list l s.items

/-- All items. -/
def allItems (s : Store) : Except Fault (List ItemRow) := do
  return latestFirst (·.createdAt) (← demand .items s.items)

/-! ### Theorems -/

/-- The theorem of a name. -/
def theorem? (name : Option String) (s : Store) : Except Fault (Option TheoremRow) := do
  let rows ← demand .theorems s.theorems
  return rows.find? fun r => some r.name == name

/-- Theorems are searched by all their texts. -/
def theoremSearch : Searching TheoremRow where
  table := .theorems
  texts r := [r.name, r.head, r.proof, r.raw]
  createdAt := (·.createdAt)

/-- How many theorems match. -/
def theoremCount (query : Option String) (s : Store) : Except Fault Nat := theoremSearch.count query none s.theorems

/-- A listing of theorems. -/
def listTheorems (l : Listing) (s : Store) : Except Fault (List TheoremRow) := theoremSearch.list l s.theorems

/-- All theorems. -/
def allTheorems (s : Store) : Except Fault (List TheoremRow) := do
  return latestFirst (·.createdAt) (← demand .theorems s.theorems)

/-! ### Definitions -/

/-- The definition of a name. -/
def definition? (name : Option String) (s : Store) : Except Fault (Option DefinitionRow) := do
  let rows ← demand .definitions s.definitions
  return rows.find? fun r => some r.name == name

/-- Definitions are searched by name and text. -/
def definitionSearch : Searching DefinitionRow where
  table := .definitions
  texts r := [r.name, r.definition]
  createdAt := (·.createdAt)

/-- How many definitions match. -/
def definitionCount (query : Option String) (s : Store) : Except Fault Nat :=
  definitionSearch.count query none s.definitions

/-- A listing of definitions. -/
def listDefinitions (l : Listing) (s : Store) : Except Fault (List DefinitionRow) :=
  definitionSearch.list l s.definitions

/-- All definitions. -/
def allDefinitions (s : Store) : Except Fault (List DefinitionRow) := do
  return latestFirst (·.createdAt) (← demand .definitions s.definitions)

/-! ### Dependencies -/

/-- The dependencies of a name, by target and then by type. -/
def dependenciesOf (name : Option String) (s : Store) : Except Fault (List DependencyRow) := do
  let t ← demand .dependencies s.dependencies
  return (t.rows.filter fun r => some r.sourceName == name).mergeSort fun a b =>
    decide (a.targetName < b.targetName) ||
      (a.targetName == b.targetName && decide (a.dependencyType ≤ b.dependencyType))

/-- Everything an export is made of: theorems and definitions from the earliest on, and all dependencies. -/
structure Contents where
  theorems : List TheoremRow
  definitions : List DefinitionRow
  dependencies : List DependencyRow
  deriving DecidableEq, Repr

/-- The contents of the store. -/
def contents (s : Store) : Except Fault Contents := do
  let theorems ← demand .theorems s.theorems
  let definitions ← demand .definitions s.definitions
  let t ← demand .dependencies s.dependencies
  return ⟨earliestFirst (·.createdAt) theorems, earliestFirst (·.createdAt) definitions, t.rows⟩

end AcornCatalog.Store
