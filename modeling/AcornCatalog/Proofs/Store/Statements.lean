import AcornCatalog.Proofs.Store.History

/-! The tables of theorems and definitions: no name is there twice in one of them, though a theorem and a definition may
share a name. -/

namespace AcornCatalog.Store

/-- The tables of theorems, definitions and dependencies are there, and the names within each of the first two are
    distinct. -/
structure StatementsSound (s : Store) : Prop where
  theorems : ∃ rows, s.theorems = some rows ∧ (rows.map (·.name)).Nodup
  definitions : ∃ rows, s.definitions = some rows ∧ (rows.map (·.name)).Nodup
  dependencies : ∃ t, s.dependencies = some t

theorem theoremRow?_name_new {rows : List TheoremRow} {clock : String} {new : NewTheorem} {row : TheoremRow}
    (h : theoremRow? rows clock new = some row) : row.name ∉ rows.map (·.name) := by
  simp only [theoremRow?, Option.bind_eq_bind, Option.bind_eq_some_iff] at h
  obtain ⟨name, -, head, -, proof, -, raw, -, h⟩ := h
  split at h
  · cases h
  · rename_i hfree
    cases h
    simpa using hfree

theorem definitionRow?_name_new {rows : List DefinitionRow} {clock : String} {new : NewDefinition} {row : DefinitionRow}
    (h : definitionRow? rows clock new = some row) : row.name ∉ rows.map (·.name) := by
  simp only [definitionRow?, Option.bind_eq_bind, Option.bind_eq_some_iff] at h
  obtain ⟨name, -, definition, -, h⟩ := h
  split at h
  · cases h
  · rename_i hfree
    cases h
    simpa using hfree

/-- A row holds the theorem that was put forward. -/
structure HoldsTheorem (new : NewTheorem) (row : TheoremRow) : Prop where
  name : new.name = some row.name
  head : new.head = some row.head
  proof : new.proof = some row.proof
  raw : new.raw = some row.raw
  filePath : row.filePath = new.filePath
  lineNumber : row.lineNumber = new.lineNumber

theorem theoremRow?_eq_some {rows : List TheoremRow} {clock : String} {new : NewTheorem} {row : TheoremRow}
    (h : theoremRow? rows clock new = some row) :
    HoldsTheorem new row ∧ row.id = rows.length + 1 ∧ row.createdAt = clock := by
  simp only [theoremRow?, Option.bind_eq_bind, Option.bind_eq_some_iff] at h
  obtain ⟨name, hname, head, hhead, proof, hproof, raw, hraw, h⟩ := h
  split at h
  · cases h
  · cases h
    exact ⟨⟨hname, hhead, hproof, hraw, rfl, rfl⟩, rfl, rfl⟩

/-- A row holds the definition that was put forward. -/
structure HoldsDefinition (new : NewDefinition) (row : DefinitionRow) : Prop where
  name : new.name = some row.name
  definition : new.definition = some row.definition
  kind : row.kind = new.kind
  filePath : row.filePath = new.filePath
  lineNumber : row.lineNumber = new.lineNumber

theorem definitionRow?_eq_some {rows : List DefinitionRow} {clock : String} {new : NewDefinition} {row : DefinitionRow}
    (h : definitionRow? rows clock new = some row) :
    HoldsDefinition new row ∧ row.id = rows.length + 1 ∧ row.createdAt = clock := by
  simp only [definitionRow?, Option.bind_eq_bind, Option.bind_eq_some_iff] at h
  obtain ⟨name, hname, definition, hdefinition, h⟩ := h
  split at h
  · cases h
  · cases h
    exact ⟨⟨hname, hdefinition, rfl, rfl, rfl⟩, rfl, rfl⟩

theorem nodup_map_snoc {α β : Type} {f : α → β} {l : List α} {a : α} (h : (l.map f).Nodup) (ha : f a ∉ l.map f) :
    ((l ++ [a]).map f).Nodup := by
  rw [List.map_append, List.map_singleton]
  exact h.append (List.nodup_singleton _) (List.disjoint_singleton.mpr ha)

theorem StatementsSound.change {s t : Store} (h : StatementsSound s) (hc : Change s t) : StatementsSound t := by
  cases hc with
  | same => exact h
  | init => exact ⟨h.theorems, h.definitions, h.dependencies⟩
  | addItem there allowed => exact ⟨h.theorems, h.definitions, h.dependencies⟩
  | addTheorem there allowed =>
    obtain ⟨rows, hs, hnames⟩ := h.theorems
    cases hs.symm.trans there
    exact ⟨⟨_, rfl, nodup_map_snoc hnames (theoremRow?_name_new allowed)⟩, h.definitions, h.dependencies⟩
  | addDefinition there allowed =>
    obtain ⟨rows, hs, hnames⟩ := h.definitions
    cases hs.symm.trans there
    exact ⟨h.theorems, ⟨_, rfl, nodup_map_snoc hnames (definitionRow?_name_new allowed)⟩, h.dependencies⟩
  | addDependency there => exact ⟨h.theorems, h.definitions, _, rfl⟩

theorem statementsSound_after (calls : List Call) : StatementsSound (withStatements.after calls) :=
  after_induction ⟨⟨[], rfl, .nil⟩, ⟨[], rfl, .nil⟩, _, rfl⟩ (fun _ _ => StatementsSound.change) calls

end AcornCatalog.Store
