import AcornCatalog.Declaration.Reading
import AcornCatalog.Identifier.Mention
import AcornCatalog.Sha256
import AcornCatalog.Utf8

/-! Source files: every declaration and import in the lines of a file, from top to bottom. A line that begins none is
passed over, and so is one whose declaration cannot be read. -/

namespace AcornCatalog

open Text Reader

/-- What one place in a file holds. -/
inductive Entry where
  | declared (d : Declaration)
  | imported (i : Import)

/-- What a declaration that was read puts into the file, and how many lines it uses. -/
def Entry.ofReading {α : Type} (declare : α → List Declaration) : Option (α × Nat) → List Entry × Nat
  | none => ([], 0)
  | some (d, used) => ((declare d).map .declared, used)

/-- Reads what begins at a line. A class stands for itself and for its members, an attributes block for its members
    alone, and an instance for itself alone. -/
def entriesAt (file : SourcePath) (number : Nat) (line : Line) (rest : List Line) : List Entry × Nat :=
  let start := trimStart line
  let begins := fun (word : String) => word.toList.isPrefixOf start
  let place : Place := ⟨file, number⟩
  if isIdleLine start then ([], 0)
  else if begins "from " || begins "import " then ((Import.read? line).toList.map .imported, 0)
  else if begins "instance " then Entry.ofReading (fun d => [.instanceBlock d]) (InstanceBlock.read? place line rest)
  else if begins "theorem " || begins "axiom " then
    Entry.ofReading (fun d => [.statement d]) (Statement.read? place line rest)
  else if begins "typeclass " then
    Entry.ofReading (fun d => .typeClass d :: d.expand) (TypeClass.read? place line rest)
  else if begins "structure " then
    Entry.ofReading (fun d => [.structureType d]) (StructureType.read? place line rest)
  else if begins "inductive " then
    Entry.ofReading (fun d => [.inductiveType d]) (InductiveType.read? place line rest)
  else if begins "define " then Entry.ofReading (fun d => [.definition d]) (Definition.read? place line rest)
  else if begins "attributes " then
    Entry.ofReading (fun d => d.located.members.map .definition) (AttributesBlock.read? place line rest)
  else ([], 0)

/-- A name that tells a declaration apart from all others: the start of a digest of its file and its name. -/
def uuidOf (file : SourcePath) (name : String) : String :=
  String.ofList ((Sha256.hexDigest (file.text ++ "::" ++ name)).take 16)

/-- Gives a declaration its uuid and the names that its source mentions. -/
def Declaration.enrich (file : SourcePath) (d : Declaration) : Declaration :=
  d.modify fun item =>
    { item with uuid := some (uuidOf file item.name), identifiers := Identifier.mentioned item.source }

/-- What a source file holds. -/
structure SourceFile where
  declarations : List Declaration
  imports : List Import

namespace SourceFile

/-- Everything in the lines of a file. -/
def entries (file : SourcePath) (ls : List Line) : List Entry := sweep (entriesAt file) 0 0 ls

/-- Reads a file from its lines. -/
def ofLines (file : SourcePath) (ls : List Line) : SourceFile :=
  let found := entries file ls
  { declarations := found.filterMap fun
      | .declared d => some (d.enrich file)
      | .imported _ => none
    imports := found.filterMap fun
      | .declared _ => none
      | .imported i => some i }

/-- Reads a file from its text. -/
def ofText (file : SourcePath) (text : List Char) : SourceFile := ofLines file (lines (unifyBreaks text))

/-- Reads a file from its bytes, which must be UTF-8. -/
def ofBytes (file : SourcePath) (bytes : List UInt8) : Except Utf8.Malformed SourceFile :=
  (Utf8.decode bytes).map (ofText file)

end SourceFile

end AcornCatalog
