import AcornCatalog.Check.Report
import AcornCatalog.Reference
import AcornCatalog.Store.Query

/-! The tools offered to a language model: what they are called, what they take, and what they answer. A tool always
answers with one text; whatever goes wrong is told in it. -/

namespace AcornCatalog

/-- The tools. -/
inductive Tool where
  | addTheorem
  | getTheorem
  | listTheorems
  | addDefinition
  | getDefinition
  | listDefinitions
  | syntaxReference
  | checkSource
  deriving DecidableEq, Repr

namespace Tool

/-- All tools, in the order in which they are offered. -/
def all : List Tool :=
  [.addTheorem, .getTheorem, .listTheorems, .addDefinition, .getDefinition, .listDefinitions, .syntaxReference,
   .checkSource]

/-- The name a tool is called by. -/
def name : Tool → String
  | .addTheorem => "add_theorem"
  | .getTheorem => "get_theorem"
  | .listTheorems => "list_theorems"
  | .addDefinition => "add_definition"
  | .getDefinition => "get_definition"
  | .listDefinitions => "list_definitions"
  | .syntaxReference => "get_acorn_syntax"
  | .checkSource => "check_acorn_syntax"

/-- The tool of a name. -/
def ofName? (name : String) : Option Tool := all.find? (·.name == name)

/-- What a tool does. -/
def description : Tool → String
  | .addTheorem => "Add a new theorem to the database"
  | .getTheorem => "Get a theorem by name"
  | .listTheorems => "List all theorems in the database"
  | .addDefinition => "Add a new definition to the database"
  | .getDefinition => "Get a definition by name"
  | .listDefinitions => "List all definitions in the database"
  | .syntaxReference => "Return the condensed Acorn syntax reference"
  | .checkSource => "Check Acorn source text for common syntax issues"

/-- The arguments of a tool, all of them texts that must be given, and what they are. -/
def parameters : Tool → List (String × String)
  | .addTheorem =>
    [("name", "Name of the theorem"), ("theorem_head", "Statement of the theorem"), ("proof", "Proof of the theorem"),
     ("raw", "Raw theorem text with free variables")]
  | .getTheorem => [("name", "Name of the theorem to retrieve")]
  | .addDefinition => [("name", "Name of the definition"), ("definition", "The definition text")]
  | .getDefinition => [("name", "Name of the definition to retrieve")]
  | .checkSource => [("source", "Acorn code to validate")]
  | .listTheorems | .listDefinitions | .syntaxReference => []

/-- The shape of the arguments of a tool. -/
def inputSchema (t : Tool) : Json :=
  .obj ([("type", .str "object"),
         ("properties", .obj (t.parameters.map fun (key, about) =>
           (key, .obj [("type", .str "string"), ("description", .str about)])))] ++
    if t.parameters.isEmpty then [] else [("required", .arr (t.parameters.map fun (key, _) => .str key))])

/-- A tool as it is offered. -/
def json (t : Tool) : Json :=
  .obj [("name", .str t.name), ("description", .str t.description), ("inputSchema", t.inputSchema)]

/-- Why a call fails. -/
inductive Failure where
  | missingArgument (key : String)
  | store (fault : Fault)
  deriving DecidableEq, Repr

/-- The wording of a failure. -/
def Failure.message : Failure → String
  | .missingArgument key => s!"'{key}'"
  | .store fault => fault.message

/-- Arguments by name. -/
abbrev Arguments := List (String × String)

/-- An argument that must be given. -/
def argument (arguments : Arguments) (key : String) : Except Failure String :=
  match arguments.lookup key with
  | some value => .ok value
  | none => .error (.missingArgument key)

/-- What a call answers, and the store it leaves. -/
def run (clock : String) (arguments : Arguments) (s : Store) : Tool → Except Failure (String × Store)
  | .addTheorem => do
    let name ← argument arguments "name"
    let head ← argument arguments "theorem_head"
    let proof ← argument arguments "proof"
    let raw ← argument arguments "raw"
    let (row, s) ← (s.addTheorem clock
      { name := some name, head := some head, proof := some proof, raw := some raw }).mapError .store
    return ("Successfully added theorem: " ++ (Json.obj row.columns).text, s)
  | .getTheorem => do
    let name ← argument arguments "name"
    match ← (s.theorem? (some name)).mapError .store with
    | some row => return (row.json.text, s)
    | none => return ("Theorem '" ++ name ++ "' not found", s)
  | .listTheorems => do
    let rows ← s.allTheorems.mapError .store
    return ((Json.arr (rows.map TheoremRow.json)).text, s)
  | .addDefinition => do
    let name ← argument arguments "name"
    let definition ← argument arguments "definition"
    let (row, s) ← (s.addDefinition clock { name := some name, definition := some definition }).mapError .store
    return ("Successfully added definition: " ++ (Json.obj row.columns).text, s)
  | .getDefinition => do
    let name ← argument arguments "name"
    match ← (s.definition? (some name)).mapError .store with
    | some row => return (row.json.text, s)
    | none => return ("Definition '" ++ name ++ "' not found", s)
  | .listDefinitions => do
    let rows ← s.allDefinitions.mapError .store
    return ((Json.arr (rows.map DefinitionRow.json)).text, s)
  | .syntaxReference => return (reference, s)
  | .checkSource => do
    let source ← argument arguments "source"
    return ((Check.report source).json.text, s)

/-- Calls a tool by its name. A call that fails says so and leaves the store as it was. -/
def call (clock name : String) (arguments : Arguments) (s : Store) : String × Store :=
  match ofName? name with
  | none => ("Unknown tool: " ++ name, s)
  | some tool =>
    match tool.run clock arguments s with
    | .ok answer => answer
    | .error failure => ("Error: " ++ failure.message, s)

end Tool

end AcornCatalog
