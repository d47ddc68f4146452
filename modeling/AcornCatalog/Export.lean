import AcornCatalog.Dependency.Order
import AcornCatalog.Store.Query

/-! Exporting theorems and definitions in the order of their dependencies, as records or as one source text. -/

namespace AcornCatalog

open Dependency

/-- What an export lists. -/
inductive Exported where
  | statement (row : TheoremRow)
  | definition (row : DefinitionRow)
  deriving DecidableEq, Repr

namespace Exported

/-- The name of an entry. -/
def name : Exported → String
  | .statement row => row.name
  | .definition row => row.name

/-- What an entry is. -/
def type : Exported → String
  | .statement _ => "theorem"
  | .definition _ => "definition"

/-- The source text of an entry. -/
def text : Exported → String
  | .statement row => row.raw
  | .definition row => row.definition

/-- The file and line of an entry. -/
def origin : Exported → Option String × Option Int
  | .statement row => (row.filePath, row.lineNumber)
  | .definition row => (row.filePath, row.lineNumber)

/-- An entry as a record. -/
def json : Exported → Json
  | .statement row =>
    .obj [("name", .str row.name), ("type", .str "theorem"), ("theorem_head", .str row.head), ("proof", .str row.proof),
          ("raw", .str row.raw), ("file_path", .ofText? row.filePath), ("line_number", .ofInt? row.lineNumber),
          ("created_at", .str row.createdAt)]
  | .definition row =>
    .obj [("name", .str row.name), ("type", .str "definition"), ("kind", .ofText? row.kind),
          ("definition", .str row.definition), ("file_path", .ofText? row.filePath),
          ("line_number", .ofInt? row.lineNumber), ("created_at", .str row.createdAt)]

/-- The comments above an entry in a source text: what it is, and where it comes from if that is known. -/
def heading (e : Exported) : List String :=
  let (file, line) := e.origin
  [s!"// {e.type}: {e.name}"] ++
    (match file with
     | none | some "" => []
     | some file => ["// Source: " ++ file ++ ":" ++ (line.map toString).getD "None"])

/-- The lines of an entry in a source text: its heading, its text, and a blank line. -/
def lines (e : Exported) : List String := e.heading ++ [e.text, ""]

end Exported

/-- An export: its entries in order, and what it was made from. -/
structure Export where
  entries : List Exported
  theorems : Nat
  definitions : Nat
  dependencies : Nat
  deriving DecidableEq, Repr

namespace Export

/-- The export of some contents. -/
def ofContents (c : Store.Contents) : Export :=
  let entries := c.theorems.map Exported.statement ++ c.definitions.map Exported.definition
  { entries := order Exported.name entries (c.dependencies.map fun d => ⟨d.sourceName, d.targetName⟩)
    theorems := c.theorems.length
    definitions := c.definitions.length
    dependencies := c.dependencies.length }

/-- The export of a store. -/
def ofStore (s : Store) : Except Fault Export := do return ofContents (← s.contents)

/-- An export as a record. -/
def json (e : Export) : Json :=
  .obj [("items", .arr (e.entries.map Exported.json)),
        ("stats", .obj [("total_items", .int e.entries.length), ("theorems", .int e.theorems),
                        ("definitions", .int e.definitions), ("dependencies", .int e.dependencies)])]

/-- The comments above all entries of an export, and a blank line. -/
def heading (e : Export) : List String :=
  ["// Acorn MCP Export", "// Generated from database", s!"// Total items: {e.entries.length}", ""]

/-- An export as one source text. -/
def text (e : Export) : String := "\n".intercalate (e.heading ++ e.entries.flatMap Exported.lines)

end Export

end AcornCatalog
