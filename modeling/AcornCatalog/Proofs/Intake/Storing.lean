import AcornCatalog.Intake
import AcornCatalog.Proofs.SourceTree
import AcornCatalog.Proofs.Store.Items

/-! Taking a library into the store twice. Each declaration becomes a further row or is refused, and either way it is
barred from then on: rows never go, so what clashes with one clashes for good. A second run therefore adds nothing. -/

namespace AcornCatalog.Intake

open Text Store

/-! ### One declaration -/

/-- What is put forward for an item in the file of that path. -/
def offer (item : Item) (l : Location) (path : SourcePath) : NewItem :=
  { name := some item.name, kind := some item.kind.label, source := some item.source, uuid := item.uuid,
    identifierName := item.identifierName, filePath := some path.text, lineNumber := some l.line }

/-- The same, if the file of the item lies in the catalog. -/
def offer? (root : SourcePath) (item : Item) (l : Location) : Option NewItem :=
  (l.file.relativeTo root).toOption.map (offer item l)

/-- The rows leave no room for an item: what is put forward for it, if anything, is out of range or clashes. -/
def Barred (root : SourcePath) (rows : List ItemRow) (item : Item) (l : Location) : Prop :=
  ∀ new, offer? root item l = some new → OutOfRange new.lineNumber ∨ Clashes rows new

/-- The row that an item becomes below the rows that are there. -/
def Becomes (root : SourcePath) (clock : String) (rows : List ItemRow) (item : Item) (l : Location) (row : ItemRow) :
    Prop :=
  ∃ new, offer? root item l = some new ∧ ¬OutOfRange new.lineNumber ∧ itemRow? rows clock new = some row

section Item

variable {root : SourcePath} {clock : String} {item : Item} {l : Location} {rows : List ItemRow} {row : ItemRow}
  {s : Store}

theorem not_incomplete_of_offer? {new : NewItem} (h : offer? root item l = some new) : ¬Incomplete new := by
  obtain ⟨path, -, rfl⟩ := Option.map_eq_some_iff.mp h
  simp [Incomplete, offer]

theorem addItem_error_or_ok (hs : s.items = some rows) (clock : String) (new : NewItem) :
    ((OutOfRange new.lineNumber ∨ Incomplete new ∨ Clashes rows new) ∧ ∃ fault, s.addItem clock new = .error fault) ∨
    ∃ row, ¬OutOfRange new.lineNumber ∧ itemRow? rows clock new = some row ∧
      s.addItem clock new = .ok (row, { s with items := some (rows ++ [row]) }) := by
  unfold addItem insertRow
  rw [hs]
  cases hfit : storable new.lineNumber with
  | false => exact Or.inl ⟨Or.inl (storable_eq_false.mp hfit), _, rfl⟩
  | true =>
    cases hrow : itemRow? rows clock new with
    | none => exact Or.inl ⟨Or.inr (itemRow?_eq_none.mp hrow), .taken .items new.name, by simp only [hrow, if_true]⟩
    | some row =>
      refine Or.inr ⟨row, fun hout => ?_, rfl, by simp only [hrow, if_true]⟩
      simp [storable_eq_false.mpr hout] at hfit

theorem storeItem_eq {path : SourcePath} (hpath : l.file.relativeTo root = .ok path) :
    storeItem root clock item l s = ((s.addItem clock (offer item l path)).mapError Refusal.store).map (·.2) := by
  unfold storeItem
  rw [hpath]
  change ((s.addItem clock (offer item l path)).mapError Refusal.store).bind _ = _
  cases s.addItem clock (offer item l path) <;> rfl

/-- An item is refused if it is barred, and becomes the last row if not. -/
theorem storeItem_cases (hs : s.items = some rows) (root : SourcePath) (clock : String) (item : Item) (l : Location) :
    (Barred root rows item l ∧ ∃ r, storeItem root clock item l s = .error r) ∨
    ∃ row, Becomes root clock rows item l row ∧
      storeItem root clock item l s = .ok { s with items := some (rows ++ [row]) } := by
  cases hpath : l.file.relativeTo root with
  | error fault =>
    have hnone : offer? root item l = none := by
      rw [offer?, hpath]
      rfl
    refine Or.inl ⟨fun new hnew => ?_, .path fault, ?_⟩
    · rw [hnone] at hnew
      cases hnew
    · rw [storeItem, hpath]
      rfl
  | ok path =>
    have hoffer : offer? root item l = some (offer item l path) := by
      rw [offer?, hpath]
      rfl
    rw [storeItem_eq hpath]
    rcases addItem_error_or_ok hs clock (offer item l path) with ⟨hrefused, fault, hadd⟩ | ⟨row, hrange, hrow, hadd⟩
    · refine Or.inl ⟨fun new hnew => ?_, .store fault, by rw [hadd]; rfl⟩
      cases hoffer.symm.trans hnew
      exact hrefused.imp_right fun h => h.resolve_left (not_incomplete_of_offer? hoffer)
    · exact Or.inr ⟨row, ⟨_, hoffer, hrange, hrow⟩, by rw [hadd]; rfl⟩

theorem Barred.append (h : Barred root rows item l) (more : List ItemRow) : Barred root (rows ++ more) item l :=
  fun new hnew => (h new hnew).imp_right fun hclash => hclash.append more

/-- An item that has become a row is barred by it. -/
theorem Becomes.barred (h : Becomes root clock rows item l row) : Barred root (rows ++ [row]) item l := by
  obtain ⟨new, hnew, -, hrow⟩ := h
  intro new' hnew'
  cases hnew.symm.trans hnew'
  have hholds := (itemRow?_eq_some hrow).1
  refine Or.inr (Or.inr ⟨row, by simp, hholds.filePath.symm, hholds.name.symm⟩)

theorem Becomes.not_barred (h : Becomes root clock rows item l row) : ¬Barred root rows item l := by
  obtain ⟨new, hnew, hrange, hrow⟩ := h
  exact fun hbarred => (hbarred new hnew).elim hrange (itemRow?_eq_some hrow).2.2.2

end Item

/-! ### One after the other -/

/-- How storing goes on from a tally and the rows so far to the tally and the rows at the end: each declaration becomes
    a row below all others, or is barred and counted as refused. -/
inductive Storing (root : SourcePath) (clock : String) :
    List Declaration → Tally → List ItemRow → Tally → List ItemRow → Prop
  | done {t rows} : Storing root clock [] t rows t rows
  | stored {d ds l row t rows t' rows'} (place : d.item.location = some l)
      (becomes : Becomes root clock rows d.item l row)
      (later : Storing root clock ds { t with added := t.added + 1 } (rows ++ [row]) t' rows') :
      Storing root clock (d :: ds) t rows t' rows'
  | refused {d ds l r t rows t' rows'} (place : d.item.location = some l) (barred : Barred root rows d.item l)
      (later : Storing root clock ds (t.refuse d.item l r) rows t' rows') :
      Storing root clock (d :: ds) t rows t' rows'

theorem storeAll_storing {root : SourcePath} {clock : String} {ds : List Declaration}
    (hds : ∀ d ∈ ds, d.item.location ≠ none) {s : Store} {rows : List ItemRow} (hs : s.items = some rows) (t : Tally) :
    ∃ t' rows', storeAll root clock ds t s = (some t', { s with items := some rows' }) ∧
      Storing root clock ds t rows t' rows' := by
  induction ds generalizing s rows t with
  | nil => exact ⟨t, rows, by rw [storeAll, ← hs], .done⟩
  | cons d ds ih =>
    obtain ⟨l, place⟩ := Option.ne_none_iff_exists'.mp (hds d (List.mem_cons_self ..))
    have hrest : ∀ e ∈ ds, e.item.location ≠ none := fun e he => hds e (List.mem_cons_of_mem _ he)
    rw [storeAll, place]
    rcases storeItem_cases hs root clock d.item l with ⟨hbarred, r, hend⟩ | ⟨row, hbecomes, hend⟩
    · obtain ⟨t', rows', hall, hstoring⟩ := ih hrest hs (t.refuse d.item l r)
      exact ⟨t', rows', by simp only [hend, hall], .refused place hbarred hstoring⟩
    · obtain ⟨t', rows', hall, hstoring⟩ :=
        ih hrest (s := { s with items := some (rows ++ [row]) }) rfl { t with added := t.added + 1 }
      exact ⟨t', rows', by simp only [hend, hall], .stored place hbecomes hstoring⟩

namespace Storing

variable {root : SourcePath} {clock : String} {ds : List Declaration} {t t' : Tally} {rows rows' : List ItemRow}

theorem counted (h : Storing root clock ds t rows t' rows') :
    t'.added + t'.skipped + t'.failed = t.added + t.skipped + t.failed + ds.length := by
  induction h with
  | done => rfl
  | stored place becomes later ih =>
    simp only [List.length_cons] at ih ⊢
    omega
  | refused place barred later ih =>
    simp only [Tally.refuse, List.length_cons] at ih ⊢
    split at ih <;> omega

/-- The rows that were there stay, and below them stands one for each addition. -/
theorem grows (h : Storing root clock ds t rows t' rows') :
    ∃ new, rows' = rows ++ new ∧ t'.added = t.added + new.length := by
  induction h with
  | done => exact ⟨[], (List.append_nil _).symm, rfl⟩
  | @stored d ds l row t rows t' rows' place becomes later ih =>
    obtain ⟨new, rfl, hadded⟩ := ih
    refine ⟨row :: new, by simp, ?_⟩
    simp only [List.length_cons] at hadded ⊢
    omega
  | refused place barred later ih => exact ih

/-- In the end every declaration is barred. -/
theorem barred_of_mem (h : Storing root clock ds t rows t' rows') {d : Declaration} (hd : d ∈ ds) {l : Location}
    (hl : d.item.location = some l) : Barred root rows' d.item l := by
  induction h with
  | done => cases hd
  | stored place becomes later ih =>
    rcases List.mem_cons.mp hd with rfl | hd
    · cases place.symm.trans hl
      obtain ⟨new, rfl, -⟩ := later.grows
      exact becomes.barred.append new
    · exact ih hd
  | refused place barred later ih =>
    rcases List.mem_cons.mp hd with rfl | hd
    · cases place.symm.trans hl
      obtain ⟨new, rfl, -⟩ := later.grows
      exact barred.append new
    · exact ih hd

/-- If every declaration is barred from the start, nothing is added. -/
theorem eq_of_barred (h : Storing root clock ds t rows t' rows')
    (hbarred : ∀ d ∈ ds, ∀ l, d.item.location = some l → Barred root rows d.item l) :
    rows' = rows ∧ t'.added = t.added := by
  induction h with
  | done => exact ⟨rfl, rfl⟩
  | stored place becomes later ih => exact absurd (hbarred _ (List.mem_cons_self ..) _ place) becomes.not_barred
  | refused place barred later ih => exact ih fun d hd => hbarred d (List.mem_cons_of_mem _ hd)

end Storing

/-! ### Names under which declarations are stored -/

theorem rename_rename (d : Declaration) : rename (rename d) = rename d := by
  rw [rename, rename, Declaration.modify_modify]
  congr 1
  funext item
  cases item.kind.isQualifiedMember with
  | true => simp
  | false => simp [lastPart_lastPart]

theorem map_rename_map_rename (ds : List Declaration) : (ds.map rename).map rename = ds.map rename := by
  rw [List.map_map]
  exact List.map_congr_left fun d _ => rename_rename d

/-! ### Libraries -/

theorem collect_eq (root : SourcePath) (tree : SourceTree) :
    (collect root tree).1 = (tree.sources root).flatMap fun path => tree.declarationsIn path := by
  simp only [collect, List.flatMap_map]
  congr 1
  funext path
  unfold SourceTree.declarationsIn
  cases tree.readSource path <;> rfl

theorem location_of_mem_renamed {root : SourcePath} {tree : SourceTree} {e : Declaration}
    (h : e ∈ (collect root tree).1.map rename) : e.item.location ≠ none := by
  obtain ⟨d, hd, rfl⟩ := List.mem_map.mp h
  rw [collect_eq] at hd
  obtain ⟨path, -, hd⟩ := List.mem_flatMap.mp hd
  obtain ⟨bytes, -, hdeclared⟩ := SourceTree.declaredIn_of_mem hd
  obtain ⟨number, -, hat⟩ := hdeclared.readAt
  rw [rename, Declaration.item_modify, hat.location]
  exact Option.some_ne_none _

/-- A run stores the declarations under their new names, and says what became of them. -/
theorem run_storing {ds : List Declaration} (hds : ∀ d ∈ ds.map rename, d.item.location ≠ none) (root : SourcePath)
    (clock : String) (s : Store) :
    ∃ tally rows, Storing root clock (ds.map rename) {} (s.items.getD []) tally rows ∧
      run clock false ds s root = ⟨some tally.report, ds.map rename, { s with items := some rows }⟩ := by
  obtain ⟨tally, rows, hall, hstoring⟩ := storeAll_storing hds (s := s.init) rfl {}
  refine ⟨tally, rows, hstoring, ?_⟩
  simp only [run, hall]
  rfl

/-- Taking the library of a catalog into any store counts every declaration once, as added, skipped or failed. It leaves
    the rows of the items table as they were, with one more for each that was added, and nothing else changes. Taking it
    in again, as it was read or under the names that the first run gave, adds nothing and changes nothing. -/
theorem run_accounted_and_idempotent (root : SourcePath) (clock : String) (tree : SourceTree) (s : Store) :
    let ds := (collect (libraryRoot root) tree).1
    let first := run clock false ds s root
    ∃ (tally : Tally) (new : List ItemRow),
      first.out = some tally.report ∧ tally.added + tally.skipped + tally.failed = ds.length ∧
      new.length = tally.added ∧ first.store = { s with items := some (s.items.getD [] ++ new) } ∧
      ∀ later again, again = ds ∨ again = first.declarations →
        let second := run later false again first.store root
        ∃ tally' : Tally, second.out = some tally'.report ∧ tally'.added = 0 ∧
          tally'.skipped + tally'.failed = ds.length ∧ second.store = first.store := by
  intro ds first
  have hlocated : ∀ d ∈ ds.map rename, d.item.location ≠ none := fun d hd => location_of_mem_renamed hd
  obtain ⟨tally, rows, hstoring, hfirst : first = _⟩ := run_storing hlocated root clock s
  obtain ⟨new, rfl, hadded⟩ := hstoring.grows
  have hcounted := hstoring.counted
  simp only [List.length_map, Nat.zero_add, Nat.add_zero] at hcounted hadded
  rw [hfirst]
  refine ⟨tally, new, rfl, hcounted, hadded.symm, rfl, fun later again hagain => ?_⟩
  -- under their new names the declarations are the same again, and all are barred by now
  have hrenamed : again.map rename = ds.map rename := by
    rcases hagain with rfl | rfl
    · rfl
    · exact map_rename_map_rename ds
  obtain ⟨tally', rows', hstoring', hsecond⟩ :=
    run_storing (hrenamed ▸ hlocated) root later { s with items := some (s.items.getD [] ++ new) }
  rw [hrenamed] at hstoring'
  have hcounted' := hstoring'.counted
  obtain ⟨rfl, hadded'⟩ := hstoring'.eq_of_barred fun d hd l hl => hstoring.barred_of_mem hd hl
  simp only [List.length_map, Nat.zero_add, Nat.add_zero] at hcounted' hadded'
  rw [hsecond]
  exact ⟨tally', rfl, hadded', by omega, rfl⟩

end AcornCatalog.Intake
