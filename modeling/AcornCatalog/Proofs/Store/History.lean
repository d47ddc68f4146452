import AcornCatalog.Export
import Mathlib.Data.List.Nodup
import Mathlib.Data.List.Range

/-! Histories of the store: all that can be asked of it, one call after the other. A call leaves the store as it was,
makes the items table, or adds one row to one table; so every table that is there stays there, with its rows in front of
those that come later. -/

namespace AcornCatalog.Store

/-! ### Calls -/

/-- Everything that can be read off the store. -/
inductive Reading where
  | item (name : Option String)
  | itemByUuid (uuid : Option String)
  | itemCount (query kind : Option String)
  | items (l : Listing)
  | allItems
  | theoremNamed (name : Option String)
  | theoremCount (query : Option String)
  | theorems (l : Listing)
  | allTheorems
  | definition (name : Option String)
  | definitionCount (query : Option String)
  | definitions (l : Listing)
  | allDefinitions
  | dependencies (name : Option String)
  | contents
  | exportRecord
  | exportText

/-- Everything that can be asked of the store. An addition comes with the time it is made at. -/
inductive Call where
  | init
  | addItem (clock : String) (new : NewItem)
  | addTheorem (clock : String) (new : NewTheorem)
  | addDefinition (clock : String) (new : NewDefinition)
  | addDependency (new : NewDependency)
  | read (r : Reading)

/-- A row that may be missing, as a record. -/
def rowJson {α : Type} (json : α → Json) (row : Option α) : Json := (row.map json).getD .null

/-- Rows as a list of records. -/
def rowsJson {α : Type} (json : α → Json) (rows : List α) : Json := .arr (rows.map json)

/-- The answer to a reading. -/
def Reading.answer (s : Store) : Reading → Except Fault Json
  | .item name => (s.item? name).map (rowJson ItemRow.json)
  | .itemByUuid uuid => (s.itemByUuid? uuid).map (rowJson ItemRow.json)
  | .itemCount query kind => (s.itemCount query kind).map fun n => .int n
  | .items l => (s.listItems l).map (rowsJson ItemRow.json)
  | .allItems => s.allItems.map (rowsJson ItemRow.json)
  | .theoremNamed name => (s.theorem? name).map (rowJson TheoremRow.json)
  | .theoremCount query => (s.theoremCount query).map fun n => .int n
  | .theorems l => (s.listTheorems l).map (rowsJson TheoremRow.json)
  | .allTheorems => s.allTheorems.map (rowsJson TheoremRow.json)
  | .definition name => (s.definition? name).map (rowJson DefinitionRow.json)
  | .definitionCount query => (s.definitionCount query).map fun n => .int n
  | .definitions l => (s.listDefinitions l).map (rowsJson DefinitionRow.json)
  | .allDefinitions => s.allDefinitions.map (rowsJson DefinitionRow.json)
  | .dependencies name => (s.dependenciesOf name).map (rowsJson DependencyRow.json)
  | .contents => s.contents.map fun c =>
      .obj [("theorems", rowsJson TheoremRow.json c.theorems),
            ("definitions", rowsJson DefinitionRow.json c.definitions),
            ("dependencies", rowsJson DependencyRow.json c.dependencies)]
  | .exportRecord => (Export.ofStore s).map Export.json
  | .exportText => (Export.ofStore s).map fun e => .str e.text

/-- The answer to an addition, given how its row is shown, and the store it leaves; one that fails leaves the store as
    it was. -/
def added {α : Type} (s : Store) (columns : α → List (String × Json)) :
    Except Fault (α × Store) → Except Fault Json × Store
  | .ok (row, next) => (.ok (.obj (columns row)), next)
  | .error fault => (.error fault, s)

/-- The record of a dependency that was put forward. -/
def dependencyColumns (new : NewDependency) : List (String × Json) :=
  [("source_name", .ofText? new.sourceName), ("source_type", .ofText? new.sourceType),
   ("target_name", .ofText? new.targetName), ("dependency_type", .ofText? new.dependencyType)]

/-- The answer to a call, and the store it leaves. -/
def Call.perform (s : Store) : Call → Except Fault Json × Store
  | .init => (.ok .null, s.init)
  | .addItem clock new => added s ItemRow.columns (s.addItem clock new)
  | .addTheorem clock new => added s TheoremRow.columns (s.addTheorem clock new)
  | .addDefinition clock new => added s DefinitionRow.columns (s.addDefinition clock new)
  | .addDependency new => added s dependencyColumns ((s.addDependency new).map fun next => (new, next))
  | .read r => (r.answer s, s)

/-- The store after some calls. -/
def after (s : Store) (calls : List Call) : Store := calls.foldl (fun s c => (c.perform s).2) s

/-! ### Additions -/

section Additions
variable {α : Type} {s t : Store} {clock : String} {table : Table} {rows : Option (List α)} {line : Option Int}
  {name : Option String} {row? : List α → Option α} {put : List α → Store}

theorem insertRow_eq_ok {row : α} (h : insertRow table rows line name row? put = .ok (row, t)) :
    ∃ before, rows = some before ∧ row? before = some row ∧ t = put (before ++ [row]) := by
  unfold insertRow at h
  split at h
  · cases h
  · rename_i before
    split at h
    · split at h
      · cases h
      · rename_i row' hrow
        cases h
        exact ⟨before, rfl, hrow, rfl⟩
    · cases h

theorem addDependency_eq_ok {new : NewDependency} (h : s.addDependency new = .ok t) :
    ∃ before, s.dependencies = some before ∧
      t = { s with dependencies := some ⟨before.rows ++ (dependencyRow? before new).toList, before.attempts + 1⟩ } := by
  cases hs : s.dependencies with
  | none => simp [addDependency, hs, demand, bind, Except.bind] at h
  | some before =>
    refine ⟨before, rfl, ?_⟩
    simp only [addDependency, hs, demand, bind, Except.bind, pure, Except.pure, Except.ok.injEq] at h
    exact h.symm

end Additions

/-! ### What one call does -/

/-- What a call can make of the store: nothing, an items table where there was none, or one row more that the rules of
    its table allow. -/
inductive Change (s : Store) : Store → Prop where
  | same : Change s s
  | init : Change s s.init
  | addItem {clock : String} {new : NewItem} {before : List ItemRow} {row : ItemRow} (there : s.items = some before)
      (allowed : itemRow? before clock new = some row) : Change s { s with items := some (before ++ [row]) }
  | addTheorem {clock : String} {new : NewTheorem} {before : List TheoremRow} {row : TheoremRow}
      (there : s.theorems = some before) (allowed : theoremRow? before clock new = some row) :
      Change s { s with theorems := some (before ++ [row]) }
  | addDefinition {clock : String} {new : NewDefinition} {before : List DefinitionRow} {row : DefinitionRow}
      (there : s.definitions = some before) (allowed : definitionRow? before clock new = some row) :
      Change s { s with definitions := some (before ++ [row]) }
  | addDependency {new : NewDependency} {before : DependencyTable} (there : s.dependencies = some before) :
      Change s { s with
        dependencies := some ⟨before.rows ++ (dependencyRow? before new).toList, before.attempts + 1⟩ }

/-- An addition changes the store in an allowed way if it does so where it succeeds. -/
theorem added_change {α : Type} {s : Store} {columns : α → List (String × Json)} {r : Except Fault (α × Store)}
    (h : ∀ row next, r = .ok (row, next) → Change s next) : Change s (added s columns r).2 := by
  cases r with
  | error fault => exact .same
  | ok p => exact h p.1 p.2 rfl

theorem perform_change (s : Store) (c : Call) : Change s (c.perform s).2 := by
  cases c with
  | init => exact .init
  | addItem clock new =>
    refine added_change fun row next hok => ?_
    obtain ⟨before, there, allowed, rfl⟩ := insertRow_eq_ok hok
    exact .addItem there allowed
  | addTheorem clock new =>
    refine added_change fun row next hok => ?_
    obtain ⟨before, there, allowed, rfl⟩ := insertRow_eq_ok hok
    exact .addTheorem there allowed
  | addDefinition clock new =>
    refine added_change fun row next hok => ?_
    obtain ⟨before, there, allowed, rfl⟩ := insertRow_eq_ok hok
    exact .addDefinition there allowed
  | addDependency new =>
    refine added_change fun row next hok => ?_
    cases hadd : s.addDependency new with
    | error fault =>
      rw [hadd] at hok
      cases hok
    | ok next' =>
      rw [hadd] at hok
      cases hok
      obtain ⟨before, there, rfl⟩ := addDependency_eq_ok hadd
      exact .addDependency there
  | read r => exact .same

/-- What holds at the start and is kept by every change holds after any calls. -/
theorem after_induction {P : Store → Prop} {s : Store} (start : P s) (keep : ∀ s t, P s → Change s t → P t)
    (calls : List Call) : P (s.after calls) := by
  induction calls generalizing s with
  | nil => exact start
  | cons c calls ih => exact ih (keep s _ start (perform_change s c))

end AcornCatalog.Store
