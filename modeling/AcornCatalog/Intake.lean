import AcornCatalog.SourceTree
import AcornCatalog.Store.Basic

/-! Taking a whole library of source files into the store, with a transcript of what was done. An item that the store
refuses is skipped and reported; the others go on. The library stands in a folder of the catalog, and paths in the store
lead from the root of the catalog. -/

namespace AcornCatalog.Intake

open Text

/-- Where the library of a catalog stands. -/
def libraryRoot (root : SourcePath) : SourcePath := root.inside ["acornlib", "src"]

/-- What was written to the two outputs. -/
structure Transcript where
  out : String := ""
  err : String := ""
  deriving DecidableEq, Repr

/-! ### Names -/

/-- Gives a declaration the name it is stored under. Members of classes and attributes blocks keep the name of their
    type; of all others only the last part is kept. -/
def rename (d : Declaration) : Declaration :=
  d.modify fun item =>
    let short := lastPart item.name
    { item with identifierName := some short, name := if item.kind.isQualifiedMember then item.name else short }

/-! ### Dry runs -/

/-- How many declarations there are of each kind, by label. -/
def kindCounts (ds : List Declaration) : List (String × Nat) :=
  let labels := ds.map (·.item.kind.label)
  (sortedDistinct labels).map fun label => (label, labels.count label)

/-- What a dry run says. -/
def dryReport (ds : List Declaration) : String :=
  s!"[dry-run] Parsed {ds.length} items.\nBreakdown by kind:\n" ++
    String.join ((kindCounts ds).map fun (label, n) => s!"  {label}: {n}\n")

/-! ### Storing -/

/-- What became of the declarations so far. -/
structure Tally where
  added : Nat := 0
  skipped : Nat := 0
  failed : Nat := 0
  details : List String := []
  deriving DecidableEq, Repr

/-- Where a declaration comes from, for a report. -/
def mark (item : Item) (l : Location) : String :=
  s!"{item.name} ({l.file.name}:{l.line}) [kind={item.kind.label}]"

/-- Why a declaration could not be stored. -/
inductive Refusal where
  | path (fault : PathFault)
  | store (fault : Fault)
  deriving DecidableEq, Repr

/-- The wording of a refusal. -/
def Refusal.message : Refusal → String
  | .path fault => fault.message
  | .store fault => fault.message

/-- A refusal is a failure only if the store could not be asked at all. -/
def Refusal.isFailure : Refusal → Bool
  | .path _ => false
  | .store (.taken _ _) => false
  | .store _ => true

/-- What is said of a declaration that was refused. -/
def Refusal.detail (item : Item) (l : Location) (r : Refusal) : String :=
  if r.isFailure then s!"  ERROR: {mark item l}: {r.message}"
  else if occursIn "already exists".toList r.message.toList then s!"  Duplicate: {mark item l}"
  else s!"  ValueError: {item.name} - {r.message}"

/-- Counts a refusal. -/
def Tally.refuse (item : Item) (l : Location) (r : Refusal) (t : Tally) : Tally :=
  { t with
    skipped := if r.isFailure then t.skipped else t.skipped + 1
    failed := if r.isFailure then t.failed + 1 else t.failed
    details := t.details ++ [r.detail item l] }

/-- Stores one declaration. -/
def storeItem (root : SourcePath) (clock : String) (item : Item) (l : Location) (s : Store) : Except Refusal Store := do
  let path ← (l.file.relativeTo root).mapError .path
  let (_, s) ← (s.addItem clock
    { name := some item.name, kind := some item.kind.label, source := some item.source, uuid := item.uuid,
      identifierName := item.identifierName, filePath := some path.text,
      lineNumber := some l.line }).mapError .store
  return s

/-- Stores declarations one after the other. One without a location cannot even be reported, and stops the run. -/
def storeAll (root : SourcePath) (clock : String) : List Declaration → Tally → Store → Option Tally × Store
  | [], t, s => (some t, s)
  | d :: ds, t, s =>
    match d.item.location with
    | none => (none, s)
    | some l =>
      match storeItem root clock d.item l s with
      | .ok s => storeAll root clock ds { t with added := t.added + 1 } s
      | .error r => storeAll root clock ds (t.refuse d.item l r) s

/-- What a run says; of the details only the first ten are shown. -/
def Tally.report (t : Tally) : String :=
  s!"=== Importing items ===\nItems: added {t.added}, skipped {t.skipped}, failed {t.failed}\n" ++
    (if t.details.isEmpty then ""
     else "\nSkipped/Failed details (showing first 10):\n" ++ String.join ((t.details.take 10).map (· ++ "\n"))) ++
    s!"\n=== Summary ===\nTotal items: {t.added} added, {t.skipped} skipped, {t.failed} failed\n"

/-- What a run leads to: what was said unless it was stopped, the declarations under their new names, and the store. -/
structure Outcome where
  out : Option String
  declarations : List Declaration
  store : Store

/-- Takes declarations into the store of the catalog in the folder `root`, or only counts them. -/
def run (clock : String) (dry : Bool) (ds : List Declaration) (s : Store) (root : SourcePath := .here) : Outcome :=
  let ds := ds.map rename
  let s := s.init
  if dry then ⟨some (dryReport ds), ds, s⟩
  else
    let (tally, s) := storeAll root clock ds {} s
    ⟨tally.map Tally.report, ds, s⟩

/-! ### Libraries -/

/-- The declarations of a library, and what is said about files that cannot be read. -/
def collect (root : SourcePath) (tree : SourceTree) : List Declaration × String :=
  let readings := (tree.sources root).map fun path => (path, tree.readSource path)
  (readings.flatMap fun
     | (_, .ok file) => file.declarations
     | (_, .error _) => [],
   String.join (readings.map fun
     | (_, .ok _) => ""
     | (path, .error message) => s!"[error] Failed to parse {path.text}: {message}\n"))

/-- Takes the library of a catalog into its store. Without a library there is only a message. -/
def runLibrary (clock : String) (dry : Bool) (tree : SourceTree) (s : Store) (root : SourcePath := .here) :
    Except String Transcript × Store :=
  if tree.contains (libraryRoot root) then
    let (ds, err) := collect (libraryRoot root) tree
    let outcome := run clock dry ds s root
    (.ok { out := outcome.out.getD "", err }, outcome.store)
  else (.error ("acornlib source not found at " ++ (libraryRoot root).text), s)

end AcornCatalog.Intake
