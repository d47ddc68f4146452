import AcornCatalog.Proofs.Dependency.Queue
import AcornCatalog.Proofs.Sorting

/-! The order of items by their dependencies. The names that are settled are carried by the last items that have them;
the items of the other names are left over, and they are the items whose names are blocked. -/

namespace AcornCatalog.Dependency

section Items
variable {α : Type} {name : α → String} {items : List α} {n : String}

/-- A list is another one sorted by name, items of one name staying in the order in which they came. -/
structure StablySorted (name : α → String) (items sorted : List α) : Prop where
  perm : sorted.Perm items
  ascending : sorted.Pairwise fun a b => name a ≤ name b
  stable : ∀ n, sorted.filter (name · == n) = items.filter (name · == n)

theorem stablySorted_mergeSort (name : α → String) (items : List α) :
    StablySorted name items (items.mergeSort fun a b => decide (name a ≤ name b)) := by
  have htrans : ∀ a b c : α, decide (name a ≤ name b) = true → decide (name b ≤ name c) = true →
      decide (name a ≤ name c) = true := fun a b c hab hbc => by
    simp only [decide_eq_true_eq] at hab hbc ⊢
    exact String.le_trans hab hbc
  have htotal : ∀ a b : α, (decide (name a ≤ name b) || decide (name b ≤ name a)) = true := fun a b => by
    simpa using String.le_total (name a) (name b)
  refine ⟨List.mergeSort_perm .., ?_, fun n => filter_mergeSort htrans htotal (fun a b ha hb => ?_) items⟩
  · exact (List.pairwise_mergeSort htrans htotal items).imp fun h => of_decide_eq_true h
  · rw [beq_iff_eq.mp ha, beq_iff_eq.mp hb]
    exact decide_eq_true (String.le_refl n)

/-- A name that items have is carried by the last of them. -/
theorem exists_last_named (hn : n ∈ items.map name) :
    ∃ i, (items.filter fun i => name i == n).getLast? = some i ∧ name i = n := by
  obtain ⟨i, hi, rfl⟩ := List.mem_map.mp hn
  have hne : items.filter (fun j => name j == name i) ≠ [] :=
    List.ne_nil_of_mem (List.mem_filter.mpr ⟨hi, beq_self_eq_true _⟩)
  refine ⟨_, List.getLast?_eq_some_getLast hne, ?_⟩
  exact beq_iff_eq.mp (List.mem_filter.mp (List.getLast_mem hne)).2

/-- Standing for names that items have, the items carry just those names. -/
theorem map_name_filterMap_last {settled : List String} (h : settled ⊆ items.map name) :
    (settled.filterMap fun n => (items.filter fun i => name i == n).getLast?).map name = settled := by
  induction settled with
  | nil => rfl
  | cons n settled ih =>
    obtain ⟨hn, hrest⟩ := List.cons_subset.mp h
    obtain ⟨i, hi, hname⟩ := exists_last_named hn
    simp only [List.filterMap_cons, hi, List.map_cons, hname, ih hrest]

/-- The items that stand for distinct names are one for each name. -/
theorem filter_filterMap_last {settled : List String} (hd : settled.Nodup) (h : settled ⊆ items.map name) (n : String) :
    (settled.filterMap fun n => (items.filter fun i => name i == n).getLast?).filter (name · == n) =
      if n ∈ settled then (items.filter fun i => name i == n).getLast?.toList else [] := by
  induction settled with
  | nil => rfl
  | cons m settled ih =>
    obtain ⟨hm, hrest⟩ := List.cons_subset.mp h
    obtain ⟨hnew, hd'⟩ := List.nodup_cons.mp hd
    obtain ⟨i, hi, rfl⟩ := exists_last_named hm
    simp only [List.filterMap_cons, hi, List.filter_cons, ih hd' hrest, beq_iff_eq, List.mem_cons]
    by_cases hn : name i = n
    · subst hn
      rw [if_pos rfl, if_neg hnew, if_pos (Or.inl rfl), hi]
      rfl
    · rw [if_neg hn]
      exact if_congr (or_iff_right (Ne.symm hn)).symm rfl rfl

theorem order_eq (name : α → String) (items : List α) (edges : List Edge) :
    order name items edges =
      (settledNames (items.map name) edges).filterMap (fun n => (items.filter fun i => name i == n).getLast?) ++
        (items.filter fun i => !(settledNames (items.map name) edges).contains (name i)).mergeSort fun a b =>
          decide (name a ≤ name b) := by
  simp only [order, OrderedMap.get?_ofEntries_last]

theorem filter_left_over {edges : List Edge} :
    (items.filter fun i => !(settledNames (items.map name) edges).contains (name i)) =
      items.filter fun i => Blocked (items.map name) edges (name i) := by
  refine List.filter_congr fun i hi => ?_
  have hn : name i ∈ items.map name := List.mem_map_of_mem hi
  rw [Bool.eq_iff_iff]
  simp only [List.contains_eq_mem, Bool.not_eq_true', decide_eq_false_iff_not, decide_eq_true_eq, mem_settledNames, hn,
    true_and, not_not]

/-- Of a name that is blocked all items are there, in the order in which they came; of any other only the last. -/
theorem order_filter (name : α → String) (items : List α) (edges : List Edge) (n : String) :
    (order name items edges).filter (name · == n) =
      if Blocked (items.map name) edges n then items.filter (name · == n)
      else (items.filter (name · == n)).getLast?.toList := by
  have hplace := settledNames_inPlace (items.map name) edges
  rw [order_eq, List.filter_append, filter_filterMap_last hplace.distinct fun m hm => (mem_settledNames.mp hm).1,
    (stablySorted_mergeSort name _).stable, filter_left_over, List.filter_filter]
  by_cases hn : Blocked (items.map name) edges n
  · have hout : n ∉ settledNames (items.map name) edges := fun h => (mem_settledNames.mp h).2 hn
    rw [if_neg hout, if_pos hn, List.nil_append]
    refine List.filter_congr fun i _ => ?_
    rw [Bool.and_eq_left_iff_imp]
    intro hi
    exact decide_eq_true (beq_iff_eq.mp hi ▸ hn)
  · rw [if_neg hn]
    have hnone : (items.filter fun i => name i == n && decide (Blocked (items.map name) edges (name i))) = [] := by
      rw [List.filter_eq_nil_iff]
      rintro i - hi
      simp only [Bool.and_eq_true, beq_iff_eq, decide_eq_true_eq] at hi
      exact hn (hi.1 ▸ hi.2)
    rw [hnone, List.append_nil]
    split
    · rfl
    · rename_i hout
      have hmissing : n ∉ items.map name := fun h => hout (mem_settledNames.mpr ⟨h, hn⟩)
      have hnil : items.filter (name · == n) = [] := by
        rw [List.filter_eq_nil_iff]
        exact fun i hi heq => hmissing (beq_iff_eq.mp heq ▸ List.mem_map_of_mem hi)
      rw [hnil]
      rfl

theorem mem_of_mem_order {edges : List Edge} {i : α} (h : i ∈ order name items edges) : i ∈ items := by
  rw [order_eq] at h
  rcases List.mem_append.mp h with h | h
  · obtain ⟨n, -, hlast⟩ := List.mem_filterMap.mp h
    exact (List.mem_filter.mp (List.mem_of_getLast? hlast)).1
  · exact (List.mem_filter.mp (List.mem_mergeSort.mp h)).1

/-- Items come out in two parts. In front stand the names that are not blocked, each once, by the last item of that
    name and behind all that it depends on; then come all items of the blocked names, stably sorted by name. -/
theorem order_correct (name : α → String) (items : List α) (edges : List Edge) :
    ∃ front back, order name items edges = front ++ back ∧
      (∀ n, (front.map name).count n =
        if n ∈ items.map name ∧ ¬Blocked (items.map name) edges n then 1 else 0) ∧
      (∀ i ∈ front, (items.filter (name · == name i)).getLast? = some i) ∧
      (∀ a b, DependsOn (items.map name) edges a b → ¬Blocked (items.map name) edges a →
        [b, a].Sublist (front.map name)) ∧
      StablySorted name (items.filter fun i => Blocked (items.map name) edges (name i)) back := by
  have hplace := settledNames_inPlace (items.map name) edges
  have hnames : ((settledNames (items.map name) edges).filterMap fun n =>
      (items.filter fun i => name i == n).getLast?).map name = settledNames (items.map name) edges :=
    map_name_filterMap_last fun n hn => (mem_settledNames.mp hn).1
  refine ⟨_, _, order_eq name items edges, ?_, ?_, ?_, ?_⟩
  · intro n
    rw [hnames, hplace.distinct.count]
    exact if_congr mem_settledNames rfl rfl
  · intro i hi
    obtain ⟨n, -, hlast⟩ := List.mem_filterMap.mp hi
    have hname := (List.mem_filter.mp (List.mem_of_getLast? hlast)).2
    rw [beq_iff_eq.mp hname]
    exact hlast
  · intro a b hab hfree
    obtain ⟨before, after, hsplit⟩ := List.append_of_mem (mem_settledNames.mpr ⟨hab.2.1, hfree⟩)
    have hb : b ∈ before := hplace.behind before a after hsplit b hab
    rw [hnames, hsplit]
    exact (List.singleton_sublist.mpr hb).append (List.singleton_sublist.mpr (List.mem_cons_self ..))
  · rw [filter_left_over]
    exact stablySorted_mergeSort name _

end Items

end AcornCatalog.Dependency
