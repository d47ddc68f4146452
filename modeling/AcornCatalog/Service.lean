import AcornCatalog.Export
import AcornCatalog.Text.Line

/-! The requests of the web front end: pages of listings, single rows, additions, exports, and the files it is made of. -/

namespace AcornCatalog.Service

/-- Why a request fails: the store refuses, or the request is answered with a status and a detail. -/
inductive Failure where
  | store (fault : Fault)
  | refused (status : Nat) (detail : String)
  deriving DecidableEq, Repr

/-- What a request on the store gives. -/
abbrev Answer := Except Failure

/-- A reading of the store whose faults are passed on. -/
def reading {α : Type} (r : Except Fault α) : Answer α := r.mapError .store

/-- An addition to the store: a row that cannot be added is a bad request. -/
def addition {α : Type} : Except Fault α → Answer α
  | .ok a => .ok a
  | .error (.taken table name) => .error (.refused 400 (Fault.taken table name).message)
  | .error fault => .error (.store fault)

/-- What was looked for, or the answer that it is not there. -/
def present {α : Type} (detail : String) : Option α → Answer α
  | some a => .ok a
  | none => .error (.refused 404 detail)

/-! ### Pages -/

/-- One page of a listing. -/
structure Page (α : Type) where
  rows : List α
  total : Nat
  page : Nat
  pageSize : Nat
  pages : Nat
  deriving DecidableEq, Repr

/-- How many pages some rows take; there is always one. -/
def pageCount (total pageSize : Nat) : Nat := max 1 ((total + pageSize - 1) / pageSize)

/-- The page that is shown when page `page` is asked for, counted from one: the last one if there are fewer. -/
def shownPage (total page pageSize : Nat) : Nat := min page (pageCount total pageSize)

/-- The listing that a page shows. -/
def pageListing (total page pageSize : Nat) (query kind : Option String) : Store.Listing :=
  { limit := pageSize, offset := ((shownPage total page pageSize - 1) * pageSize : Nat), query, kind }

/-- A page of the rows that `list` lists, of which there are `total`. -/
def pageOf {α : Type} (total page pageSize : Nat) (query kind : Option String)
    (list : Store.Listing → Except Fault (List α)) : Except Fault (Page α) := do
  let rows ← list (pageListing total page pageSize query kind)
  return { rows, total, page := shownPage total page pageSize, pageSize, pages := pageCount total pageSize }

/-- A page as a record, its rows under `label`. -/
def Page.json {α : Type} (label : String) (row : α → Json) (p : Page α) (more : List (String × Json)) : Json :=
  .obj ([(label, .arr (p.rows.map row)), ("total", .int p.total), ("page", .int p.page), ("page_size", .int p.pageSize),
         ("pages", .int p.pages)] ++ more)

/-- A page of the items that match. -/
def itemPage (page pageSize : Nat) (query kind : Option String) (s : Store) : Answer (Page ItemRow) := reading do
  pageOf (← s.itemCount query kind) page pageSize query kind fun l => s.listItems l

/-- A page of the theorems that match. -/
def theoremPage (page pageSize : Nat) (query : Option String) (s : Store) : Answer (Page TheoremRow) := reading do
  pageOf (← s.theoremCount query) page pageSize query none fun l => s.listTheorems l

/-- A page of the definitions that match. -/
def definitionPage (page pageSize : Nat) (query : Option String) (s : Store) : Answer (Page DefinitionRow) := reading do
  pageOf (← s.definitionCount query) page pageSize query none fun l => s.listDefinitions l

/-! ### Single rows -/

/-- The theorem of a name. -/
def readTheorem (name : String) (s : Store) : Answer TheoremRow := do
  present "Theorem not found" (← reading (s.theorem? (some name)))

/-- The definition of a name. -/
def readDefinition (name : String) (s : Store) : Answer DefinitionRow := do
  present "Definition not found" (← reading (s.definition? (some name)))

/-- The item with a uuid. -/
def readItemByUuid (uuid : String) (s : Store) : Answer ItemRow := do
  present "Item not found" (← reading (s.itemByUuid? (some uuid)))

/-- Whether an item may stand for a name that no item has: its own name has the same last part. -/
def standsFor (name : String) (r : ItemRow) : Bool :=
  let simple := Text.lastPart name
  r.name == name || ('.' :: simple.toList).isSuffixOf r.name.toList || r.name == simple

/-- The item of a name. If there is none, the first that may stand for it among the latest hundred that a search for
    the name finds. -/
def readItem (name : String) (s : Store) : Answer ItemRow := do
  match ← reading (s.item? (some name)) with
  | some row => return row
  | none =>
    let candidates ← reading (s.listItems { limit := maxPageSize, query := some name })
    present ("Item not found: " ++ name) (candidates.find? (standsFor name))

/-! ### Additions -/

/-- Adds a theorem. -/
def createTheorem (clock name head proof raw : String) (s : Store) : Answer (TheoremRow × Store) :=
  addition (s.addTheorem clock { name := some name, head := some head, proof := some proof, raw := some raw })

/-- Adds a definition. -/
def createDefinition (clock name definition : String) (s : Store) : Answer (DefinitionRow × Store) :=
  addition (s.addDefinition clock { name := some name, definition := some definition })

/-- Adds an item. As no file is given, the store never takes it. -/
def createItem (clock name kind source : String) (s : Store) : Answer (ItemRow × Store) :=
  addition (s.addItem clock { name := some name, kind := some kind, source := some source })

/-! ### Dependencies and files -/

/-- The dependencies of an item as a record. -/
def itemDependencies (name : String) (s : Store) : Answer Json := do
  let rows ← reading (s.dependenciesOf (some name))
  return .obj [("item", .str name), ("dependencies", .arr (rows.map DependencyRow.json)), ("count", .int rows.length)]

/-- The pages of the front end. -/
inductive StaticPage where
  | root
  | theorems
  | definitions
  | create
  | browse
  deriving DecidableEq, Repr

/-- The file of a page. -/
def StaticPage.file : StaticPage → String
  | .root => "static/index.html"
  | .theorems => "static/theorems.html"
  | .definitions => "static/definitions.html"
  | .create => "static/create.html"
  | .browse => "static/browse.html"

/-- What is said when the file of a page is missing. -/
def StaticPage.missing : StaticPage → String
  | .root => "Frontend assets not found"
  | .theorems => "Theorems page not found"
  | .definitions => "Definitions page not found"
  | .create => "Create page not found"
  | .browse => "Browse page not found"

/-- Serves a page, given whether its file is there. -/
def servePage (fileExists : Bool) (p : StaticPage) : Answer String :=
  present p.missing (if fileExists then some p.file else none)

end AcornCatalog.Service
