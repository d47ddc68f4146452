import AcornCatalog.Proofs.Store.Items
import AcornCatalog.Proofs.Store.Statements

/-! The ids of rows. Each table numbers its rows from one as they come, so a table whose ids can all be stored has no
more rows than there are numbers for them. -/

namespace AcornCatalog.Store

/-- Rows are numbered from one, in the order in which they came. -/
def Numbered {α : Type} (id : α → Nat) (rows : List α) : Prop := rows.map id = List.range' 1 rows.length

section Numbered
variable {α : Type} {id : α → Nat} {rows : List α} {row : α}

theorem Numbered.snoc (h : Numbered id rows) (hrow : id row = rows.length + 1) : Numbered id (rows ++ [row]) := by
  unfold Numbered at h ⊢
  rw [List.map_append, h, List.length_append, List.length_singleton, List.range'_1_concat, List.map_singleton, hrow,
    Nat.add_comm]

theorem Numbered.nodup (h : Numbered id rows) : rows.Nodup := by
  have hids : (rows.map id).Nodup := h ▸ List.nodup_range'
  exact hids.of_map _

/-- Where all ids can be stored, so can the number of rows: it is the id of the last one. -/
theorem Numbered.storable_of_le {n : Nat} (h : Numbered id rows) (hids : ∀ r ∈ rows, storable (some (id r)) = true)
    (hn : n ≤ rows.length) : storable (some n) = true := by
  rcases Nat.eq_zero_or_pos rows.length with hnil | hpos
  · obtain rfl : n = 0 := by omega
    rfl
  · have hlast : rows.length ∈ rows.map id := by
      rw [h, List.mem_range'_1]
      omega
    obtain ⟨r, hr, heq⟩ := List.mem_map.mp hlast
    have hfit := hids r hr
    simp only [storable, Option.all_some, Bool.and_eq_true, decide_eq_true_eq] at hfit ⊢
    omega

end Numbered

/-! ### What calls keep -/

/-- All ids can be stored. The engine keeps ids as numbers of 64 bits with a sign, so it has no store of another
    kind. -/
structure IdsStorable (s : Store) : Prop where
  items : ∀ rows, s.items = some rows → ∀ r ∈ rows, storable (some r.id) = true
  theorems : ∀ rows, s.theorems = some rows → ∀ r ∈ rows, storable (some r.id) = true
  definitions : ∀ rows, s.definitions = some rows → ∀ r ∈ rows, storable (some r.id) = true

/-- All rows of the store are numbered within their tables. -/
structure RowsNumbered (s : Store) : Prop where
  items : ∀ rows, s.items = some rows → Numbered (·.id) rows
  theorems : ∀ rows, s.theorems = some rows → Numbered (·.id) rows
  definitions : ∀ rows, s.definitions = some rows → Numbered (·.id) rows

theorem rowsNumbered_empty : RowsNumbered {} := ⟨nofun, nofun, nofun⟩

theorem rowsNumbered_withStatements : RowsNumbered withStatements := by
  refine ⟨nofun, fun rows hrows => ?_, fun rows hrows => ?_⟩ <;>
  · cases hrows
    rfl

theorem RowsNumbered.change {s t : Store} (h : RowsNumbered s) (hc : Change s t) : RowsNumbered t := by
  cases hc with
  | same => exact h
  | init =>
    refine ⟨fun rows hrows => ?_, h.theorems, h.definitions⟩
    cases hs : s.items with
    | none =>
      simp only [Store.init, hs, Option.getD_none, Option.some.injEq] at hrows
      subst hrows
      rfl
    | some before =>
      simp only [Store.init, hs, Option.getD_some, Option.some.injEq] at hrows
      exact hrows ▸ h.items before hs
  | addItem there allowed =>
    refine ⟨fun rows hrows => ?_, h.theorems, h.definitions⟩
    cases hrows
    exact (h.items _ there).snoc (itemRow?_eq_some allowed).2.1
  | addTheorem there allowed =>
    refine ⟨h.items, fun rows hrows => ?_, h.definitions⟩
    cases hrows
    exact (h.theorems _ there).snoc (theoremRow?_eq_some allowed).2.1
  | addDefinition there allowed =>
    refine ⟨h.items, h.theorems, fun rows hrows => ?_⟩
    cases hrows
    exact (h.definitions _ there).snoc (definitionRow?_eq_some allowed).2.1
  | addDependency there => exact ⟨h.items, h.theorems, h.definitions⟩

/-- The items table keeps its rules from either start on, with or without the tables of theorems and definitions. -/
theorem itemsSound_of_start {start : Store} (hstart : start = Store.init {} ∨ start = withStatements.init)
    (calls : List Call) : ItemsSound (start.after calls) := by
  refine after_induction ?_ (fun _ _ => ItemsSound.change) calls
  rcases hstart with rfl | rfl <;> exact ⟨[], rfl, .nil⟩

end AcornCatalog.Store
