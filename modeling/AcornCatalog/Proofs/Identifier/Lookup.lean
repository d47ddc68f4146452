import AcornCatalog.Identifier.Index
import AcornCatalog.Proofs.OrderedMap
import Mathlib.Data.List.Induction

/-! Which declaration is found under a name. The index and the origins are filled in two ways, the one entering a
declaration under its own name twice and the other once; both come to entering it once under every name it defines. So
the origins have the names of the index, in the order in which they are first defined, and tell of the same
declarations: for each name, of the last that defines it. -/

namespace AcornCatalog.Identifier

variable {ds : List Declaration} {d : Declaration} {name : String}

/-! ### Entering a declaration -/

theorem enter_eq (m : OrderedMap Declaration) (d : Declaration) :
    enter m d = m.insertAll (d.definedNames.map fun name => (name, d)) := by
  have hown : (m.insert d.name d).get? d.name = some d := by rw [OrderedMap.get?_insert, if_pos rfl]
  have htwice : enter m d = ((m.insert d.name d).insert d.name d).insertAll
      ((d.memberNames.map fun member => d.name ++ "." ++ member).map fun name => (name, d)) := rfl
  rw [htwice, OrderedMap.insert_of_get? hown]
  rfl

theorem enterOrigin_eq (m : OrderedMap Origin) (d : Declaration) :
    enterOrigin m d = m.insertAll (d.definedNames.map fun name => (name, Origin.ofDeclaration d)) := by
  have hown : (m.insert d.name (.ofDeclaration d)).get? d.name = some (Origin.ofDeclaration d) := by
    rw [OrderedMap.get?_insert, if_pos rfl]
  have htwice : (m.insert d.name (.ofDeclaration d)).insertAll
        (d.definedNames.map fun name => (name, Origin.ofDeclaration d)) =
      ((m.insert d.name (.ofDeclaration d)).insert d.name (.ofDeclaration d)).insertAll
        ((d.memberNames.map fun member => d.name ++ "." ++ member).map fun name => (name, .ofDeclaration d)) := rfl
  rw [enterOrigin, OrderedMap.insertAll_filter hown, htwice, OrderedMap.insert_of_get? hown]
  rfl

theorem index_eq (ds : List Declaration) :
    index ds = .ofEntries (ds.flatMap fun d => d.definedNames.map fun name => (name, d)) := by
  rw [index, funext₂ enter_eq, OrderedMap.ofEntries, OrderedMap.insertAll, List.foldl_flatMap]
  rfl

theorem origins_eq (ds : List Declaration) :
    origins ds = .ofEntries (ds.flatMap fun d => d.definedNames.map fun name => (name, .ofDeclaration d)) := by
  rw [origins, funext₂ enterOrigin_eq, OrderedMap.ofEntries, OrderedMap.insertAll, List.foldl_flatMap]
  rfl

/-- Each name has the origin of the declaration that is indexed under it. -/
theorem origins_eq_map (ds : List Declaration) : origins ds = (index ds).map (Prod.map id Origin.ofDeclaration) := by
  have hentries : (ds.flatMap fun d => d.definedNames.map fun name => (name, Origin.ofDeclaration d)) =
      (ds.flatMap fun d => d.definedNames.map fun name => (name, d)).map (Prod.map id Origin.ofDeclaration) := by
    rw [List.map_flatMap]
    simp only [List.map_map]
    rfl
  rw [origins_eq, index_eq, hentries]
  exact OrderedMap.insertAll_map Origin.ofDeclaration _ []

theorem keys_origins (ds : List Declaration) : (origins ds).map (·.1) = (index ds).map (·.1) := by
  rw [origins_eq_map, List.map_map]
  rfl

theorem keys_index (ds : List Declaration) :
    (index ds).map (·.1) = (ds.flatMap Declaration.definedNames).eraseDups := by
  rw [index_eq, OrderedMap.keys_ofEntries, List.map_flatMap]
  simp only [List.map_map, Function.comp_def, List.map_id']

/-! ### The last that defines a name -/

theorem get?_enter (m : OrderedMap Declaration) (d : Declaration) (name : String) :
    (enter m d).get? name = if name ∈ d.definedNames then some d else m.get? name := by
  have hkeys : (d.definedNames.map fun name => (name, d)).map (·.1) = d.definedNames := by
    simp [Function.comp_def]
  rw [enter_eq, OrderedMap.get?_insertAll]
  cases hget : (OrderedMap.ofEntries (d.definedNames.map fun name => (name, d))).get? name with
  | none =>
    have hnone : name ∉ d.definedNames := fun hname => by
      have hsome := OrderedMap.isSome_get?_ofEntries_iff.mpr (hkeys.symm ▸ hname)
      simp [hget] at hsome
    rw [if_neg hnone, Option.none_or]
  | some e =>
    obtain ⟨n, hn, heq⟩ := List.mem_map.mp (OrderedMap.mem_of_get?_ofEntries hget)
    cases heq
    rw [if_pos hn, Option.some_or]

theorem definition?_eq_find? (name : String) (ds : List Declaration) :
    definition? name ds = ds.reverse.find? fun d => decide (name ∈ d.definedNames) := by
  induction ds using List.reverseRecOn with
  | nil => rfl
  | append_singleton ds d ih =>
    rw [definition?, index, List.foldl_append, List.foldl_cons, List.foldl_nil, get?_enter, List.reverse_append,
      List.reverse_singleton, List.singleton_append, List.find?_cons, ← ih]
    by_cases hname : name ∈ d.definedNames
    · rw [if_pos hname, decide_eq_true hname]
    · rw [if_neg hname, decide_eq_false hname]
      rfl

theorem definition?_eq_some_iff :
    definition? name ds = some d ↔
      ∃ upper lower, ds = upper ++ d :: lower ∧ name ∈ d.definedNames ∧ ∀ e ∈ lower, name ∉ e.definedNames := by
  rw [definition?_eq_find?, List.find?_eq_some_iff_append]
  constructor
  · rintro ⟨hname, front, back, heq, hfront⟩
    refine ⟨back.reverse, front.reverse, ?_, of_decide_eq_true hname, fun e he => ?_⟩
    · rw [← List.reverse_reverse ds, heq]
      simp
    · simpa using hfront e (List.mem_reverse.mp he)
  · rintro ⟨upper, lower, rfl, hname, hlower⟩
    refine ⟨decide_eq_true hname, lower.reverse, upper.reverse, by simp, fun e he => ?_⟩
    simpa using hlower e (List.mem_reverse.mp he)

theorem definition?_eq_none_iff : definition? name ds = none ↔ ∀ d ∈ ds, name ∉ d.definedNames := by
  rw [definition?_eq_find?, List.find?_eq_none]
  simp

/-- The index and the origins have the same names, in the order in which these are first defined, and the origin of a
    name is that of the declaration which is indexed under it. What is found under a name is the last declaration that
    defines it, and nothing is found exactly if none does. -/
theorem origins_agree_with_index (ds : List Declaration) :
    (origins ds).map (·.1) = (index ds).map (·.1) ∧
      (index ds).map (·.1) = (ds.flatMap Declaration.definedNames).eraseDups ∧
      (∀ name, (origins ds).get? name = ((index ds).get? name).map fun d =>
        { definedIn := d.name, kind := d.item.kind, file := d.item.location.map (·.file.text),
          line := d.item.location.map (·.line) }) ∧
      (∀ name d, definition? name ds = some d ↔
        ∃ upper lower, ds = upper ++ d :: lower ∧ name ∈ d.definedNames ∧ ∀ e ∈ lower, name ∉ e.definedNames) ∧
      ∀ name, definition? name ds = none ↔ ∀ d ∈ ds, name ∉ d.definedNames := by
  refine ⟨keys_origins ds, keys_index ds, fun name => ?_, fun name d => definition?_eq_some_iff,
    fun name => definition?_eq_none_iff⟩
  rw [origins_eq_map, OrderedMap.get?_map]
  rfl

end AcornCatalog.Identifier
