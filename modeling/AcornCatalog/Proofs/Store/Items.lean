import AcornCatalog.Proofs.Store.History
import Mathlib.Data.List.Range

/-! The rules of the items table: rows are numbered as they come, no uuid is there twice, and no name is there twice in
one file. An item is refused exactly if it breaks one of the rules, and what is refused leaves no trace. -/

namespace AcornCatalog.Store

/-! ### Rows -/

/-- A row holds what was put forward. -/
structure Holds (new : NewItem) (row : ItemRow) : Prop where
  name : new.name = some row.name
  kind : new.kind = some row.kind
  source : new.source = some row.source
  filePath : new.filePath = some row.filePath
  uuid : row.uuid = new.uuid
  identifierName : row.identifierName = new.identifierName
  lineNumber : row.lineNumber = new.lineNumber

/-- An item lacks something that every row must have. -/
def Incomplete (new : NewItem) : Prop :=
  new.name = none ∨ new.kind = none ∨ new.source = none ∨ new.filePath = none

/-- A row has the uuid of an item, or its name and file. -/
def Clashes (rows : List ItemRow) (new : NewItem) : Prop :=
  (∃ r ∈ rows, r.uuid ≠ none ∧ r.uuid = new.uuid) ∨
    ∃ r ∈ rows, some r.filePath = new.filePath ∧ some r.name = new.name

theorem Clashes.append {rows : List ItemRow} {new : NewItem} (h : Clashes rows new) (more : List ItemRow) :
    Clashes (rows ++ more) new :=
  h.imp (fun ⟨r, hr, heq⟩ => ⟨r, List.mem_append_left _ hr, heq⟩)
    (fun ⟨r, hr, heq⟩ => ⟨r, List.mem_append_left _ hr, heq⟩)

/-- A line number does not fit 64 bits with a sign. -/
def OutOfRange (line : Option Int) : Prop := ∃ n, line = some n ∧ (n < -9223372036854775808 ∨ 9223372036854775807 < n)

theorem storable_eq_false {line : Option Int} : storable line = false ↔ OutOfRange line := by
  cases line with
  | none => simp [storable, OutOfRange]
  | some n =>
    simp only [storable, Option.all_some, Bool.and_eq_false_iff, decide_eq_false_iff_not, OutOfRange, Option.some.injEq,
      exists_eq_left']
    omega

section Rows
variable {rows : List ItemRow} {clock : String} {new : NewItem} {row : ItemRow}

theorem any_clash {name filePath : String} (hname : new.name = some name) (hfile : new.filePath = some filePath) :
    (rows.any fun r => (new.uuid.isSome && r.uuid == new.uuid) || (r.filePath == filePath && r.name == name)) = true ↔
      Clashes rows new := by
  simp only [List.any_eq_true, Bool.or_eq_true, Bool.and_eq_true, beq_iff_eq, Clashes, hname, hfile, Option.some.injEq,
    and_or_left, exists_or]
  refine or_congr_left (exists_congr fun r => and_congr_right fun _ => ?_)
  refine ⟨fun ⟨hu, he⟩ => ⟨?_, he⟩, fun ⟨hu, he⟩ => ⟨?_, he⟩⟩
  · exact fun hnone => by simp [← he, hnone] at hu
  · exact Option.isSome_iff_ne_none.mpr (he ▸ hu)

/-- An item becomes a row unless it is incomplete or clashes with a row that is there. -/
theorem itemRow?_eq_none : itemRow? rows clock new = none ↔ Incomplete new ∨ Clashes rows new := by
  cases hname : new.name with
  | none => simp [itemRow?, Incomplete, hname]
  | some name =>
    cases hkind : new.kind with
    | none => simp [itemRow?, Incomplete, hname, hkind]
    | some kind =>
      cases hsource : new.source with
      | none => simp [itemRow?, Incomplete, hname, hkind, hsource]
      | some source =>
        cases hfile : new.filePath with
        | none => simp [itemRow?, Incomplete, hname, hkind, hsource, hfile]
        | some filePath =>
          have hwhole : ¬Incomplete new := by simp [Incomplete, hname, hkind, hsource, hfile]
          rw [or_iff_right hwhole, ← any_clash hname hfile]
          simp only [itemRow?, hname, hkind, hsource, hfile, Option.bind_eq_bind, Option.bind_some]
          split
          · rename_i hany
            simp [hany]
          · rename_i hany
            simp [hany]

theorem itemRow?_eq_some (h : itemRow? rows clock new = some row) :
    Holds new row ∧ row.id = rows.length + 1 ∧ row.createdAt = clock ∧ ¬Clashes rows new := by
  have hfree : ¬Clashes rows new := fun hclash => by
    rw [itemRow?_eq_none.mpr (Or.inr hclash)] at h
    cases h
  simp only [itemRow?, Option.bind_eq_bind, Option.bind_eq_some_iff] at h
  obtain ⟨name, hname, kind, hkind, source, hsource, filePath, hfile, h⟩ := h
  split at h
  · cases h
  · cases h
    exact ⟨⟨hname, hkind, hsource, hfile, rfl, rfl, rfl⟩, rfl, rfl, hfree⟩

end Rows

/-! ### The table -/

/-- The rules of the items table. -/
structure ItemRules (rows : List ItemRow) : Prop where
  numbered : rows.map (·.id) = List.range' 1 rows.length
  uuids : (rows.filterMap (·.uuid)).Nodup
  places : (rows.map fun r => (r.filePath, r.name)).Nodup

section Table
variable {rows : List ItemRow} {clock : String} {new : NewItem} {row : ItemRow}

theorem ItemRules.nil : ItemRules [] := ⟨rfl, .nil, .nil⟩

theorem ItemRules.ascending (h : ItemRules rows) : rows.Pairwise fun a b => a.id < b.id := by
  have hids : (rows.map (·.id)).Pairwise (· < ·) := h.numbered ▸ List.pairwise_lt_range'
  exact List.pairwise_map.mp hids

theorem ItemRules.id_le (h : ItemRules rows) {r : ItemRow} (hr : r ∈ rows) : r.id ≤ rows.length := by
  have hid : r.id ∈ List.range' 1 rows.length := h.numbered ▸ List.mem_map_of_mem hr
  rw [List.mem_range'_1] at hid
  omega

/-- A row that the rules allow keeps them. -/
theorem ItemRules.snoc (h : ItemRules rows) (hrow : itemRow? rows clock new = some row) :
    ItemRules (rows ++ [row]) := by
  obtain ⟨holds, hid, -, hfree⟩ := itemRow?_eq_some hrow
  refine ⟨?_, ?_, ?_⟩
  · rw [List.map_append, h.numbered, List.length_append, List.length_singleton, List.range'_1_concat]
    simp [hid, Nat.add_comm]
  · rw [List.filterMap_append]
    cases huuid : row.uuid with
    | none => simpa [huuid] using h.uuids
    | some u =>
      have hnew : u ∉ rows.filterMap (·.uuid) := fun hu => by
        obtain ⟨r, hr, hru⟩ := List.mem_filterMap.mp hu
        exact hfree (Or.inl ⟨r, hr, by simp [hru], by rw [hru, ← huuid, holds.uuid]⟩)
      simpa [huuid] using h.uuids.append (List.nodup_singleton u) (by simpa using hnew)
  · rw [List.map_append, List.map_singleton]
    refine h.places.append (List.nodup_singleton _) (List.disjoint_singleton.mpr fun hplace => ?_)
    obtain ⟨r, hr, heq⟩ := List.mem_map.mp hplace
    simp only [Prod.mk.injEq] at heq
    exact hfree (Or.inr ⟨r, hr, by rw [heq.1, holds.filePath], by rw [heq.2, holds.name]⟩)

/-- The store has an items table that keeps the rules. -/
def ItemsSound (s : Store) : Prop := ∃ rows, s.items = some rows ∧ ItemRules rows

theorem ItemsSound.change {s t : Store} (h : ItemsSound s) (hc : Change s t) : ItemsSound t := by
  obtain ⟨rows, hs, hrules⟩ := h
  cases hc with
  | same => exact ⟨rows, hs, hrules⟩
  | init => exact ⟨rows, by simp [Store.init, hs], hrules⟩
  | addItem there allowed =>
    cases hs.symm.trans there
    exact ⟨_, rfl, hrules.snoc allowed⟩
  | addTheorem there allowed => exact ⟨rows, hs, hrules⟩
  | addDefinition there allowed => exact ⟨rows, hs, hrules⟩
  | addDependency there => exact ⟨rows, hs, hrules⟩

theorem itemsSound_after (calls : List Call) : ItemsSound ((Store.init {}).after calls) :=
  after_induction ⟨[], rfl, .nil⟩ (fun _ _ => ItemsSound.change) calls

end Table

/-! ### Additions -/

section Additions
variable {s : Store} {rows : List ItemRow} {clock : String} {new : NewItem} {row : ItemRow}

/-- The three ends that putting an item forward can come to: its line number does not fit, the rules refuse it, or it
    becomes the last row. -/
theorem addItem_cases (hs : s.items = some rows) (clock : String) (new : NewItem) :
    (OutOfRange new.lineNumber ∧ (Call.addItem clock new).perform s = (.error .integerRange, s)) ∨
    (¬OutOfRange new.lineNumber ∧ (Incomplete new ∨ Clashes rows new) ∧
      (Call.addItem clock new).perform s = (.error (.taken .items new.name), s)) ∨
    (¬OutOfRange new.lineNumber ∧ ¬(Incomplete new ∨ Clashes rows new) ∧ ∃ row, itemRow? rows clock new = some row ∧
      (Call.addItem clock new).perform s = (.ok (.obj row.columns), { s with items := some (rows ++ [row]) })) := by
  cases hfit : storable new.lineNumber with
  | false =>
    refine Or.inl ⟨storable_eq_false.mp hfit, ?_⟩
    simp [Call.perform, addItem, insertRow, added, hs, hfit]
  | true =>
    have hrange : ¬OutOfRange new.lineNumber := fun hout => by simp [storable_eq_false.mpr hout] at hfit
    cases hrow : itemRow? rows clock new with
    | none =>
      refine Or.inr (Or.inl ⟨hrange, itemRow?_eq_none.mp hrow, ?_⟩)
      simp [Call.perform, addItem, insertRow, added, hs, hfit, hrow]
    | some row =>
      refine Or.inr (Or.inr ⟨hrange, fun hrefused => ?_, row, rfl, ?_⟩)
      · rw [itemRow?_eq_none.mpr hrefused] at hrow
        cases hrow
      · simp [Call.perform, addItem, insertRow, added, hs, hfit, hrow]

/-- A row that was added is found by its uuid. -/
theorem itemByUuid_added {uuid : String} (hrow : itemRow? rows clock new = some row) (huuid : new.uuid = some uuid)
    (ht : s.items = some (rows ++ [row])) :
    (Call.read (.itemByUuid (some uuid))).perform s = (.ok row.json, s) := by
  obtain ⟨holds, -, -, hfree⟩ := itemRow?_eq_some hrow
  have hnone : rows.find? (fun r => r.uuid.isSome && r.uuid == some uuid) = none := by
    rw [List.find?_eq_none]
    intro r hr hfound
    simp only [Bool.and_eq_true, beq_iff_eq] at hfound
    exact hfree (Or.inl ⟨r, hr, by simp [hfound.2], hfound.2.trans huuid.symm⟩)
  have hlast : row.uuid = some uuid := holds.uuid.trans huuid
  simp [Call.perform, Reading.answer, itemByUuid?, ht, demand, hnone, hlast, rowJson, List.find?_append, Except.map,
    bind, Except.bind, pure, Except.pure]

end Additions

/-- After any calls the items table keeps its rules, and one more addition goes as follows. It fails for its line number
    exactly if that is out of range, and is refused otherwise exactly if it is incomplete or clashes with a row; either
    way the store stays as it was. If it succeeds, the table has one more row, which holds what was put forward, which
    the answer shows, and which is found by its uuid. -/
theorem items_table_correct (calls : List Call) :
    ∃ rows, ((Store.init {}).after calls).items = some rows ∧
      rows.Pairwise (fun a b => a.id < b.id) ∧ (rows.filterMap (·.uuid)).Nodup ∧
      (rows.map fun r => (r.filePath, r.name)).Nodup ∧
      ∀ clock new answer next, (Call.addItem clock new).perform ((Store.init {}).after calls) = (answer, next) →
        (answer = .error .integerRange ↔ OutOfRange new.lineNumber) ∧
        (¬OutOfRange new.lineNumber →
          (answer = .error (.taken .items new.name) ↔ Incomplete new ∨ Clashes rows new)) ∧
        (∀ fault, answer = .error fault →
          (fault = .integerRange ∨ fault = .taken .items new.name) ∧ next = (Store.init {}).after calls) ∧
        (∀ record, answer = .ok record → ∃ row, Holds new row ∧ record = .obj row.columns ∧
          next = { (Store.init {}).after calls with items := some (rows ++ [row]) } ∧ (∀ r ∈ rows, r.id < row.id) ∧
          ∀ uuid, new.uuid = some uuid →
            (Call.read (.itemByUuid (some uuid))).perform next = (.ok row.json, next)) := by
  obtain ⟨rows, hs, hrules⟩ := itemsSound_after calls
  refine ⟨rows, hs, hrules.ascending, hrules.uuids, hrules.places, ?_⟩
  intro clock new answer next hresult
  rcases addItem_cases hs clock new with ⟨hout, hend⟩ | ⟨hin, hrefused, hend⟩ | ⟨hin, hfine, row, hrow, hend⟩ <;>
    cases hend.symm.trans hresult
  · refine ⟨iff_of_true rfl hout, fun hin => absurd hout hin, fun fault hfault => ?_, fun record hok => ?_⟩
    · cases hfault
      exact ⟨Or.inl rfl, rfl⟩
    · cases hok
  · refine ⟨iff_of_false (fun h => by cases h) hin, fun _ => iff_of_true rfl hrefused, fun fault hfault => ?_,
      fun record hok => ?_⟩
    · cases hfault
      exact ⟨Or.inr rfl, rfl⟩
    · cases hok
  · obtain ⟨holds, hid, -, -⟩ := itemRow?_eq_some hrow
    refine ⟨iff_of_false (fun h => by cases h) hin, fun _ => iff_of_false (fun h => by cases h) hfine,
      fun fault hfault => (by cases hfault), fun record hok => ?_⟩
    cases hok
    refine ⟨row, holds, rfl, rfl, fun r hr => ?_, fun uuid huuid => itemByUuid_added hrow huuid rfl⟩
    have := hrules.id_le hr
    omega

end AcornCatalog.Store
