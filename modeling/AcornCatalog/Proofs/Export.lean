import AcornCatalog.Export
import AcornCatalog.Proofs.Dependency.Order
import AcornCatalog.Proofs.Store.Statements

/-! What an export holds. Theorems and definitions are ordered together by their names, though a theorem and a
definition may share one. Of two such entries the order keeps the definition alone, unless the name is blocked by a
cycle: then both stay. All other entries are there once. -/

namespace AcornCatalog.Export

open Dependency Store

/-! ### Lists by a key -/

section Lists
variable {α : Type} {key : α → String} {l l' : List α}

/-- Where keys are distinct, at most one item has a given key. -/
theorem filter_key_of_nodup (h : (l.map key).Nodup) (n : String) :
    l.filter (key · == n) = [] ∨ ∃ a, l.filter (key · == n) = [a] := by
  have hrep : (l.filter (key · == n)).map key = List.replicate (l.filter (key · == n)).length n := by
    rw [List.eq_replicate_iff]
    refine ⟨List.length_map .., fun m hm => ?_⟩
    obtain ⟨a, ha, rfl⟩ := List.mem_map.mp hm
    exact beq_iff_eq.mp (List.mem_filter.mp ha).2
  have hle : (l.filter (key · == n)).length ≤ 1 := by
    have hnodup : ((l.filter (key · == n)).map key).Nodup := h.sublist (List.filter_sublist.map key)
    rw [hrep] at hnodup
    exact List.nodup_replicate.mp hnodup
  rcases hl : l.filter (key · == n) with _ | ⟨a, _ | ⟨b, rest⟩⟩
  · exact Or.inl rfl
  · exact Or.inr ⟨a, rfl⟩
  · rw [hl] at hle
    simp at hle

/-- Lists that agree on every key are permutations of each other. -/
theorem perm_of_filter_eq [DecidableEq α] (key : α → String)
    (h : ∀ n, l.filter (key · == n) = l'.filter (key · == n)) : l.Perm l' := by
  rw [List.perm_iff_count]
  intro a
  have hcount := congrArg (List.count a) (h (key a))
  rwa [List.count_filter (by simp), List.count_filter (by simp)] at hcount

end Lists

/-! ### Entries -/

/-- The entries of an export before they are put in order. -/
def entriesOf (theorems : List TheoremRow) (definitions : List DefinitionRow) : List Exported :=
  theorems.map .statement ++ definitions.map .definition

/-- The edges between the names of an export. -/
def edgesOf (dependencies : List DependencyRow) : List Edge := dependencies.map fun d => ⟨d.sourceName, d.targetName⟩

/-- A theorem is shadowed by a definition of the same name, unless a cycle blocks the name. -/
def Shadowed (theorems : List TheoremRow) (definitions : List DefinitionRow) (dependencies : List DependencyRow)
    (row : TheoremRow) : Prop :=
  row.name ∈ definitions.map (·.name) ∧
    ¬Blocked (theorems.map (·.name) ++ definitions.map (·.name)) (edgesOf dependencies) row.name

section Entries
variable {theorems : List TheoremRow} {definitions : List DefinitionRow} {dependencies : List DependencyRow}

instance : DecidablePred (Shadowed theorems definitions dependencies) := fun _ => inferInstanceAs (Decidable (_ ∧ _))

theorem map_name_entriesOf : (entriesOf theorems definitions).map Exported.name =
    theorems.map (·.name) ++ definitions.map (·.name) := by
  simp [entriesOf, Exported.name, Function.comp_def]

theorem filter_entriesOf (n : String) : (entriesOf theorems definitions).filter (Exported.name · == n) =
    entriesOf (theorems.filter (·.name == n)) (definitions.filter (·.name == n)) := by
  simp only [entriesOf, List.filter_append, List.filter_map]
  rfl

/-- The order keeps all definitions, and all theorems that are not shadowed. -/
theorem order_entriesOf_perm (ht : (theorems.map (·.name)).Nodup) (hd : (definitions.map (·.name)).Nodup) :
    (order Exported.name (entriesOf theorems definitions) (edgesOf dependencies)).Perm
      (entriesOf (theorems.filter fun row => ¬Shadowed theorems definitions dependencies row) definitions) := by
  refine perm_of_filter_eq Exported.name fun n => ?_
  rw [order_filter, map_name_entriesOf, filter_entriesOf, filter_entriesOf, List.filter_filter]
  by_cases hn : Blocked (theorems.map (·.name) ++ definitions.map (·.name)) (edgesOf dependencies) n
  · rw [if_pos hn]
    refine congrArg (entriesOf · _) (List.filter_congr fun row _ => ?_)
    by_cases hrow : row.name = n
    · subst hrow
      simp [Shadowed, hn]
    · simp [hrow]
  · rw [if_neg hn]
    rcases filter_key_of_nodup hd n with hnone | ⟨d, hone⟩
    · -- No definition has the name, so at most one theorem stands for it.
      have hfree : ∀ row ∈ theorems, row.name = n → ¬Shadowed theorems definitions dependencies row := by
        rintro row - rfl ⟨hmem, -⟩
        obtain ⟨d, hdmem, hdname⟩ := List.mem_map.mp hmem
        have : d ∈ definitions.filter (·.name == row.name) := List.mem_filter.mpr ⟨hdmem, beq_iff_eq.mpr hdname⟩
        rw [hnone] at this
        cases this
      have hsame : theorems.filter (fun row => row.name == n && ¬Shadowed theorems definitions dependencies row) =
          theorems.filter (·.name == n) := by
        refine List.filter_congr fun row hrow => ?_
        by_cases hname : row.name = n
        · simp [hname, hfree row hrow hname]
        · simp [hname]
      rw [hnone, hsame]
      rcases filter_key_of_nodup ht n with hnil | ⟨t, hsingle⟩
      · rw [hnil]
        rfl
      · rw [hsingle]
        rfl
    · -- The definition stands for the name, and a theorem of that name is shadowed by it.
      have hmem : d ∈ definitions.filter (·.name == n) := hone ▸ List.mem_singleton_self d
      obtain ⟨hdmem, hdname⟩ := List.mem_filter.mp hmem
      have hgone :
          theorems.filter (fun row => row.name == n && ¬Shadowed theorems definitions dependencies row) = [] := by
        rw [List.filter_eq_nil_iff]
        intro row _ hrow
        simp only [Bool.and_eq_true, beq_iff_eq, decide_eq_true_eq] at hrow
        obtain ⟨rfl, hfree⟩ := hrow
        exact hfree ⟨List.mem_map.mpr ⟨d, hdmem, beq_iff_eq.mp hdname⟩, hn⟩
      rw [hone, hgone]
      simp [entriesOf]

theorem statement_mem_entriesOf {row : TheoremRow} :
    .statement row ∈ entriesOf theorems definitions ↔ row ∈ theorems := by
  simp [entriesOf]

theorem definition_mem_entriesOf {row : DefinitionRow} :
    .definition row ∈ entriesOf theorems definitions ↔ row ∈ definitions := by
  simp [entriesOf]

theorem length_entriesOf : (entriesOf theorems definitions).length = theorems.length + definitions.length := by
  simp [entriesOf]

theorem entriesOf_nodup (ht : theorems.Nodup) (hd : definitions.Nodup) : (entriesOf theorems definitions).Nodup := by
  refine (ht.map fun _ _ h => Exported.statement.inj h).append (hd.map fun _ _ h => Exported.definition.inj h) ?_
  intro e het hed
  obtain ⟨t, -, rfl⟩ := List.mem_map.mp het
  obtain ⟨d, -, hde⟩ := List.mem_map.mp hed
  cases hde

section Lost
variable {entries : List Exported} {Lost : TheoremRow → Prop} [DecidablePred Lost]
  (hperm : entries.Perm (entriesOf (theorems.filter fun row => ¬Lost row) definitions))
include hperm

/-- Each row has one entry exactly if no theorem is lost. -/
theorem count_eq_one_iff (ht : theorems.Nodup) (hd : definitions.Nodup) :
    (∀ row ∈ theorems, entries.count (.statement row) = 1) ∧
        (∀ row ∈ definitions, entries.count (.definition row) = 1) ↔ ∀ row ∈ theorems, ¬Lost row := by
  have hnodup := hperm.nodup_iff.mpr (entriesOf_nodup (ht.filter fun row => ¬Lost row) hd)
  refine ⟨fun ⟨hrows, _⟩ row hrow => ?_, fun hkept => ⟨fun row hrow => ?_, fun row hrow => ?_⟩⟩
  · have hmem : .statement row ∈ entries := List.count_pos_iff.mp (by rw [hrows row hrow]; exact Nat.one_pos)
    have := statement_mem_entriesOf.mp (hperm.mem_iff.mp hmem)
    exact of_decide_eq_true (List.mem_filter.mp this).2
  · refine List.count_eq_one_of_mem hnodup (hperm.mem_iff.mpr (statement_mem_entriesOf.mpr ?_))
    exact List.mem_filter.mpr ⟨hrow, decide_eq_true (hkept row hrow)⟩
  · exact List.count_eq_one_of_mem hnodup (hperm.mem_iff.mpr (definition_mem_entriesOf.mpr hrow))

/-- There are as many entries as rows exactly if no theorem is lost. -/
theorem length_eq_iff : entries.length = theorems.length + definitions.length ↔ ∀ row ∈ theorems, ¬Lost row := by
  rw [hperm.length_eq, length_entriesOf, Nat.add_right_cancel_iff, List.length_filter_eq_length_iff]
  simp only [decide_eq_true_eq]

end Lost

theorem shadowed_congr {theorems' : List TheoremRow} {definitions' : List DefinitionRow} (ht : theorems.Perm theorems')
    (hd : definitions.Perm definitions') (row : TheoremRow) :
    Shadowed theorems definitions dependencies row ↔ Shadowed theorems' definitions' dependencies row := by
  refine and_congr (hd.map _).mem_iff (not_congr (blocked_congr fun n => ?_))
  simp only [List.mem_append, (ht.map _).mem_iff, (hd.map _).mem_iff]

end Entries

/-! ### Exports of a store -/

theorem earliestFirst_perm {α : Type} (createdAt : α → String) (rows : List α) :
    (earliestFirst createdAt rows).Perm rows := List.mergeSort_perm ..

/-- After any calls the export holds all definitions and all theorems that are not shadowed, each once. So it has one
    entry for each row, and as many entries as there are rows, exactly if no theorem is shadowed: if every name that a
    theorem and a definition share is blocked by a cycle. -/
theorem export_complete_iff (calls : List Call) :
    ∃ theorems definitions table e, (withStatements.after calls).theorems = some theorems ∧
      (withStatements.after calls).definitions = some definitions ∧
      (withStatements.after calls).dependencies = some table ∧ ofStore (withStatements.after calls) = .ok e ∧
      e.theorems = theorems.length ∧ e.definitions = definitions.length ∧
      e.entries.Perm
        (entriesOf (theorems.filter fun row => ¬Shadowed theorems definitions table.rows row) definitions) ∧
      ((∀ row ∈ theorems, e.entries.count (.statement row) = 1) ∧
          (∀ row ∈ definitions, e.entries.count (.definition row) = 1) ↔
        ∀ row ∈ theorems, ¬Shadowed theorems definitions table.rows row) ∧
      (e.entries.length = e.theorems + e.definitions ↔
        ∀ row ∈ theorems, ¬Shadowed theorems definitions table.rows row) := by
  obtain ⟨⟨theorems, hts, htn⟩, ⟨definitions, hds, hdn⟩, table, hdeps⟩ := statementsSound_after calls
  have hpt := earliestFirst_perm (·.createdAt) theorems
  have hpd := earliestFirst_perm (·.createdAt) definitions
  have hperm : (order Exported.name
      (entriesOf (earliestFirst (·.createdAt) theorems) (earliestFirst (·.createdAt) definitions))
      (edgesOf table.rows)).Perm
        (entriesOf (theorems.filter fun row => ¬Shadowed theorems definitions table.rows row) definitions) := by
    refine (order_entriesOf_perm ((hpt.map _).nodup_iff.mpr htn) ((hpd.map _).nodup_iff.mpr hdn)).trans ?_
    simp only [shadowed_congr hpt hpd]
    exact ((hpt.filter _).map _).append (hpd.map _)
  have hof : ofStore (withStatements.after calls) =
      .ok (ofContents ⟨earliestFirst (·.createdAt) theorems, earliestFirst (·.createdAt) definitions, table.rows⟩) := by
    simp [ofStore, contents, hts, hds, hdeps, demand, bind, Except.bind, pure, Except.pure]
  refine ⟨theorems, definitions, table, _, hts, hds, hdeps, hof, hpt.length_eq, hpd.length_eq, hperm,
    count_eq_one_iff hperm (htn.of_map _) (hdn.of_map _), ?_⟩
  rw [← length_eq_iff hperm]
  exact iff_of_eq (congrArg _ (congrArg₂ _ hpt.length_eq hpd.length_eq))

/-- A theorem and a definition of one name leave a single entry, though both are stored. -/
example : (ofStore (withStatements.after
    [.addTheorem "t" { name := some "a", head := some "", proof := some "", raw := some "" },
     .addDefinition "t" { name := some "a", definition := some "" }])).map (·.entries.length) = .ok 1 := by cbv

end AcornCatalog.Export
