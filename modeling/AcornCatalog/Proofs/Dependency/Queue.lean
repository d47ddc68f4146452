import AcornCatalog.Proofs.Dependency.Settling
import AcornCatalog.Proofs.OrderedMap
import Mathlib.Data.List.Nodup

/-! The queue of the names that are next. All the while, a name is counted the edges that lead from it to names that have
not come, and in the queue stand the names that are ready, each once. So the name that is taken from the queue is the
least that is ready, in whatever order the names came into it and however often an edge was counted. -/

namespace AcornCatalog.Dependency

/-! ### Edges that are left -/

/-- How many edges between the names lead from a name to one that has not come. -/
def owed (names : List String) (edges : List Edge) (done : List String) (n : String) : Nat :=
  (keptEdges names edges).countP fun e => e.source == n && !done.contains e.target

/-- The names that depend on a name, one for each edge. -/
def dependentsOf (names : List String) (edges : List Edge) (n : String) : List String :=
  ((keptEdges names edges).filter (·.target == n)).map (·.source)

section Owed

variable {names done : List String} {edges : List Edge} {a b : String}

theorem owed_eq_zero_iff : owed names edges done a = 0 ↔ ∀ b, DependsOn names edges a b → b ∈ done := by
  rw [owed, List.countP_eq_zero]
  constructor
  · intro h b hab
    simpa using h ⟨a, b⟩ (mem_keptEdges.mpr hab)
  · rintro h ⟨source, target⟩ he hleft
    obtain ⟨rfl, hout⟩ : source = a ∧ target ∉ done := by simpa using hleft
    exact hout (h target (mem_keptEdges.mp he))

theorem isReady_iff_owed :
    isReady (keptEdges names edges) done a = true ↔ a ∉ done ∧ owed names edges done a = 0 := by
  rw [isReady_iff, owed_eq_zero_iff]

theorem InPlace.owed_eq_zero (h : InPlace names edges done) (ha : a ∈ done) : owed names edges done a = 0 := by
  obtain ⟨before, after, rfl⟩ := List.append_of_mem ha
  exact owed_eq_zero_iff.mpr fun b hab => List.mem_append_left _ (h.behind before a after rfl b hab)

/-- When a name comes, each name is owed as many edges less as lead from it to that name. -/
theorem owed_snoc (hnew : b ∉ done) (a : String) :
    owed names edges (done ++ [b]) a + (dependentsOf names edges b).count a = owed names edges done a := by
  have hsplit := List.countP_eq_countP_filter_add (keptEdges names edges)
    (fun e => e.source == a && !done.contains e.target) (·.target == b)
  rw [owed, owed, dependentsOf, hsplit, Nat.add_comm]
  congr 1
  · rw [List.count_eq_countP, List.countP_map]
    refine List.countP_congr fun e he => ?_
    obtain rfl : e.target = b := by simpa using (List.mem_filter.mp he).2
    simp [hnew]
  · rw [List.countP_filter]
    refine List.countP_congr fun e _ => ?_
    simp [and_assoc]

end Owed

/-! ### The graph -/

/-- A graph has the names, and for each of them what it waits for and what depends on it. -/
structure Graph.Counts (g : Graph) (names : List String) (waits : String → Int) (dependents : String → List String) :
    Prop where
  waits : ∀ n, g.waits.get? n = if n ∈ names then some (waits n) else none
  dependents : ∀ n, g.dependents.get? n = if n ∈ names then some (dependents n) else none
  distinct : (g.waits.map (·.1)).Nodup

section Graphs

variable {g : Graph} {names : List String} {edges : List Edge} {waits : String → Int} {dependents : String → List String}

theorem Graph.counts_ofNames (names : List String) : (Graph.ofNames names).Counts names (fun _ => 0) fun _ => [] where
  waits := OrderedMap.get?_ofEntries_const names 0
  dependents := OrderedMap.get?_ofEntries_const names []
  distinct := OrderedMap.nodup_keys_ofEntries _

theorem Graph.Counts.link (h : g.Counts names waits dependents) {e : Edge} (hsource : e.source ∈ names)
    (htarget : e.target ∈ names) :
    (g.link e).Counts names (fun n => waits n + if e.source == n then 1 else 0) fun n =>
      dependents n ++ if e.target == n then [e.source] else [] where
  waits n := by
    rw [Graph.link, OrderedMap.get?_insert, h.waits, h.waits, if_pos hsource]
    by_cases hn : e.source = n
    · subst hn
      simp [hsource]
    · simp [hn]
  dependents n := by
    rw [Graph.link, OrderedMap.get?_insert, h.dependents, h.dependents, if_pos htarget]
    by_cases hn : e.target = n
    · subst hn
      simp [htarget]
    · simp [hn]
  distinct := OrderedMap.nodup_keys_insert h.distinct _ _

theorem Graph.Counts.foldl_link (h : g.Counts names waits dependents) {l : List Edge}
    (hl : ∀ e ∈ l, e.source ∈ names ∧ e.target ∈ names) :
    (l.foldl Graph.link g).Counts names (fun n => waits n + (l.countP (·.source == n) : Nat)) fun n =>
      dependents n ++ (l.filter (·.target == n)).map (·.source) := by
  induction l generalizing g waits dependents with
  | nil => simpa using h
  | cons e l ih =>
    obtain ⟨he, hl⟩ := List.forall_mem_cons.mp hl
    have hrest := ih (h.link he.1 he.2) hl
    have hwaits (n : String) : waits n + ((e :: l).countP (·.source == n) : Nat) =
        (waits n + if e.source == n then 1 else 0) + (l.countP (·.source == n) : Nat) := by
      rw [List.countP_cons]
      split <;> omega
    have hdependents (n : String) : dependents n ++ ((e :: l).filter (·.target == n)).map (·.source) =
        (dependents n ++ if e.target == n then [e.source] else []) ++ (l.filter (·.target == n)).map (·.source) := by
      rw [List.filter_cons]
      split <;> simp
    simpa only [List.foldl_cons, hwaits, hdependents] using hrest

theorem Graph.counts_ofEdges (names : List String) (edges : List Edge) :
    (Graph.ofEdges names edges).Counts names (fun n => (owed names edges [] n : Nat)) (dependentsOf names edges) := by
  have hkept : ∀ e ∈ keptEdges names edges, e.source ∈ names ∧ e.target ∈ names := fun e he =>
    (mem_keptEdges.mp he).2
  have howed (n : String) : owed names edges [] n = (keptEdges names edges).countP (·.source == n) := by simp [owed]
  have hcounts := (Graph.counts_ofNames names).foldl_link hkept
  simp only [Int.zero_add, List.nil_append, ← howed] at hcounts
  exact hcounts

end Graphs

/-! ### Counting off -/

/-- What counting off some names comes to. A name comes into the queue if it was counted off often enough. -/
structure Progress.CountedOff (ns : List String) (p q : Progress) : Prop where
  done : q.done = p.done
  waits : ∀ n, q.waits.get? n = (p.waits.get? n).map (· - (ns.count n : Int))
  queue : ∃ added, q.queue = p.queue ++ added ∧ added.Nodup ∧
    ∀ n, n ∈ added ↔ ∃ w, p.waits.get? n = some w ∧ 0 < w ∧ w ≤ ns.count n

section Steps

variable {p q : Progress} {n m : String}

theorem Progress.done_countOff (p : Progress) (m : String) : (p.countOff m).done = p.done := by
  rw [countOff]
  split <;> rfl

theorem Progress.get?_waits_countOff (p : Progress) (m n : String) :
    (p.countOff m).waits.get? n = (p.waits.get? n).map (· - if m = n then 1 else 0) := by
  rw [countOff]
  split
  · next hm =>
    by_cases hn : m = n
    · rw [← hn, hm]
      rfl
    · simp [hn]
  · next w hm =>
    by_cases hn : m = n
    · simp [OrderedMap.get?_insert, ← hn, hm]
    · simp [OrderedMap.get?_insert, hn]

theorem Progress.queue_countOff (p : Progress) (m : String) :
    (p.countOff m).queue = p.queue ++ if p.waits.get? m = some 1 then [m] else [] := by
  rw [countOff]
  split
  · next hm => simp [hm]
  · next w hm =>
    by_cases hw : w = 1
    · simp [hm, hw]
    · have hleft : ¬w - 1 = 0 := by omega
      simp [hm, hw, hleft]

theorem Progress.countedOff_foldl (ns : List String) (p : Progress) : CountedOff ns p (ns.foldl countOff p) := by
  induction ns generalizing p with
  | nil =>
    refine ⟨rfl, fun n => by simp, [], by simp, .nil, fun n => ?_⟩
    simp
  | cons m ns ih =>
    obtain ⟨hdone, hwaits, added, hqueue, hdistinct, hadded⟩ := ih (p.countOff m)
    have hcount (n : String) : ((m :: ns).count n : Int) = ns.count n + if m = n then 1 else 0 := by
      rw [List.count_cons]
      by_cases hn : m = n <;> simp [hn]
    rw [List.foldl_cons]
    refine ⟨hdone.trans (done_countOff p m), fun n => ?_, (if p.waits.get? m = some 1 then [m] else []) ++ added, ?_, ?_,
      fun n => ?_⟩
    · rw [hwaits, get?_waits_countOff, Option.map_map, hcount]
      congr 1
      funext w
      simp only [Function.comp_apply]
      omega
    · rw [hqueue, queue_countOff, List.append_assoc]
    · by_cases hm : p.waits.get? m = some 1
      · rw [if_pos hm]
        -- its count is used up, so the name does not come into the queue again
        refine List.nodup_cons.mpr ⟨fun hmem => ?_, hdistinct⟩
        obtain ⟨w, hw, hpos, -⟩ := (hadded m).mp hmem
        rw [get?_waits_countOff, hm, Option.map_some, if_pos rfl, Option.some.injEq] at hw
        omega
      · rw [if_neg hm]
        exact hdistinct
    · have hfirst : n ∈ (if p.waits.get? m = some 1 then [m] else []) ↔ m = n ∧ p.waits.get? n = some 1 := by
        by_cases hm : p.waits.get? m = some 1
        · rw [if_pos hm, List.mem_singleton, eq_comm]
          exact (and_iff_left_of_imp fun h => h ▸ hm).symm
        · rw [if_neg hm]
          exact iff_of_false List.not_mem_nil fun h => hm (h.1 ▸ h.2)
      rw [List.mem_append, hfirst, hadded, get?_waits_countOff, hcount]
      cases p.waits.get? n with
      | none => simp
      | some w =>
        simp only [Option.map_some, Option.some.injEq, exists_eq_left']
        by_cases hn : m = n
        · simp only [hn, true_and, if_true]
          omega
        · simp only [hn, false_and, if_false, false_or, Int.sub_zero, Int.add_zero]

end Steps

/-! ### Taking names from the queue -/

/-- What holds each time a name is taken: those that have come are in place, each name waits for the edges that it is
    owed, and in the queue are the names that are ready. -/
structure Tracks (names : List String) (edges : List Edge) (p : Progress) : Prop where
  place : InPlace names edges p.done
  waits : ∀ n, p.waits.get? n = if n ∈ names then some (owed names edges p.done n : Int) else none
  distinct : p.queue.Nodup
  queued : ∀ n, n ∈ p.queue ↔ n ∈ names ∧ isReady (keptEdges names edges) p.done n = true

section Taking

variable {names queue done : List String} {edges : List Edge} {dependents : OrderedMap (List String)}
  {waits : OrderedMap Int} {p q : Progress} {name : String}

theorem Tracks.sort (h : Tracks names edges p) : Tracks names edges p.sort where
  place := h.place
  waits := h.waits
  distinct := (List.mergeSort_perm ..).nodup_iff.mpr h.distinct
  queued n := (List.mergeSort_perm ..).mem_iff.trans (h.queued n)

theorem Progress.pairwise_queue_sort (p : Progress) : p.sort.queue.Pairwise (· ≤ ·) := by
  refine (List.pairwise_mergeSort (fun a b c hab hbc => ?_) (fun a b => ?_) p.queue).imp of_decide_eq_true
  · exact decide_eq_true (String.le_trans (of_decide_eq_true hab) (of_decide_eq_true hbc))
  · simpa using String.le_total a b

theorem tracks_start (names : List String) (edges : List Edge) :
    Tracks names edges (.start (Graph.ofEdges names edges).waits) := by
  have hcounts := Graph.counts_ofEdges names edges
  refine Tracks.sort ⟨.nil, hcounts.waits, hcounts.distinct.sublist (List.filter_sublist.map _), fun n => ?_⟩
  have hqueued : n ∈ ((Graph.ofEdges names edges).waits.filter (·.2 == 0)).map (·.1) ↔
      (Graph.ofEdges names edges).waits.get? n = some 0 := by
    rw [← OrderedMap.mem_iff_get? hcounts.distinct]
    simp
  rw [hqueued, hcounts.waits, isReady_iff_owed]
  by_cases hn : n ∈ names
  · simp [hn]
  · simp [hn]

/-- When the queue is empty, no name is ready. -/
theorem Tracks.stop (h : Tracks names edges ⟨waits, [], done⟩) :
    least? (names.filter (isReady (keptEdges names edges) done)) = none := by
  rw [least?_eq_none, List.filter_eq_nil_iff]
  intro n hn hready
  cases (h.queued n).mpr ⟨hn, hready⟩

/-- The first name of a sorted queue is the least that is ready. -/
theorem Tracks.least (h : Tracks names edges ⟨waits, name :: queue, done⟩)
    (hsorted : (name :: queue).Pairwise (· ≤ ·)) :
    least? (names.filter (isReady (keptEdges names edges) done)) = some name := by
  refine least?_eq_some (List.mem_filter.mpr ((h.queued name).mp (List.mem_cons_self ..))) fun b hb => ?_
  rcases List.mem_cons.mp ((h.queued b).mpr (List.mem_filter.mp hb)) with rfl | hb
  · exact String.le_refl b
  · exact (List.pairwise_cons.mp hsorted).1 b hb

/-- A name can be taken from the queue, if it is counted off for all that depend on it. -/
theorem Tracks.take (h : Tracks names edges ⟨waits, name :: queue, done⟩)
    (hq : Progress.CountedOff (dependentsOf names edges name) ⟨waits, queue, done ++ [name]⟩ q) :
    Tracks names edges q := by
  obtain ⟨hknown, hready⟩ : name ∈ names ∧ isReady (keptEdges names edges) done name = true :=
    (h.queued name).mp (List.mem_cons_self ..)
  obtain ⟨hnew, hfree⟩ := isReady_iff_owed.mp hready
  obtain ⟨hfirst, hrest⟩ := List.nodup_cons.mp h.distinct
  have hdone : q.done = done ++ [name] := hq.done
  have howed (n : String) : owed names edges (done ++ [name]) n + (dependentsOf names edges name).count n =
      owed names edges done n := owed_snoc hnew n
  obtain ⟨added, hqueue, hdistinct, hadded⟩ := hq.queue
  -- a name comes into the queue when the edges it is owed are used up
  have hadded' (n : String) : n ∈ added ↔ n ∈ names ∧ 0 < owed names edges done n ∧ owed names edges q.done n = 0 := by
    rw [hadded, h.waits, hdone]
    have := howed n
    by_cases hn : n ∈ names
    · simp only [hn, if_true, Option.some.injEq, exists_eq_left', true_and]
      omega
    · simp [hn]
  have hrest' (n : String) : n ∈ queue ↔ n ≠ name ∧ n ∈ names ∧ n ∉ done ∧ owed names edges done n = 0 := by
    rw [← isReady_iff_owed, ← h.queued, List.mem_cons]
    constructor
    · intro hmem
      exact ⟨fun heq => hfirst (heq ▸ hmem), Or.inr hmem⟩
    · rintro ⟨hne, heq | hmem⟩
      · exact absurd heq hne
      · exact hmem
  refine ⟨hdone ▸ h.place.snoc hknown hready, fun n => ?_, ?_, fun n => ?_⟩
  · rw [hq.waits, h.waits, hdone]
    by_cases hn : n ∈ names
    · simp only [hn, if_true, Option.map_some, Option.some.injEq]
      have := howed n
      omega
    · simp [hn]
  · rw [hqueue]
    refine hrest.append hdistinct fun n hn hn' => ?_
    have := (hrest' n).mp hn
    have := (hadded' n).mp hn'
    omega
  · rw [hqueue, List.mem_append, hrest', hadded', isReady_iff_owed, hdone, List.mem_append, List.mem_singleton, not_or]
    have := howed n
    constructor
    · rintro (⟨hne, hn, hout, hzero⟩ | ⟨hn, hpos, hzero⟩)
      · exact ⟨hn, ⟨hout, hne⟩, by omega⟩
      · refine ⟨hn, ⟨fun hin => ?_, ?_⟩, hzero⟩
        · rw [h.place.owed_eq_zero hin] at hpos
          exact Nat.lt_irrefl 0 hpos
        · rintro rfl
          omega
    · rintro ⟨hn, ⟨hout, hne⟩, hzero⟩
      rcases Nat.eq_zero_or_pos (owed names edges done n) with hfree' | hpos
      · exact Or.inl ⟨hne, hn, hout, hfree'⟩
      · exact Or.inr ⟨hn, hpos, hzero⟩

/-- Taking names from the queue until it is empty puts them in place, the least that is ready first. -/
theorem Tracks.run_eq (h : Tracks names edges p) (hsorted : p.queue.Pairwise (· ≤ ·))
    (hdependents : ∀ n ∈ names, dependents.get? n = some (dependentsOf names edges n)) {n : Nat}
    (hn : names.length ≤ n + p.done.length) :
    p.run dependents = settle names (keptEdges names edges) n p.done := by
  fun_induction Progress.run dependents p generalizing n with
  | case1 waits done =>
    cases n with
    | zero => rfl
    | succ n => rw [settle, h.stop]
  | case2 waits name queue done ih =>
    have hknown := ((h.queued name).mp (List.mem_cons_self ..)).1
    rw [hdependents name hknown, Option.getD_some] at ih ⊢
    have hcounted := Progress.countedOff_foldl (dependentsOf names edges name) ⟨waits, queue, done ++ [name]⟩
    generalize (dependentsOf names edges name).foldl Progress.countOff ⟨waits, queue, done ++ [name]⟩ = q
      at ih hcounted ⊢
    have hnext := (h.take hcounted).sort
    have hdone : q.sort.done = done ++ [name] := hcounted.done
    have hlength : q.sort.done.length = done.length + 1 := by rw [hdone, List.length_append, List.length_singleton]
    change names.length ≤ n + done.length at hn
    cases n with
    | zero =>
      have hle := (hnext.place.distinct.subperm hnext.place.known).length_le
      omega
    | succ n =>
      have hleft : names.length ≤ n + q.sort.done.length := by omega
      rw [settle, h.least hsorted, ih hnext (Progress.pairwise_queue_sort q) hleft, hdone]

theorem settledNames_eq (names : List String) (edges : List Edge) :
    settledNames names edges = settle names (keptEdges names edges) names.length [] := by
  have hdependents : ∀ n ∈ names,
      (Graph.ofEdges names edges).dependents.get? n = some (dependentsOf names edges n) := fun n hn => by
    rw [(Graph.counts_ofEdges names edges).dependents, if_pos hn]
  exact (tracks_start names edges).run_eq (Progress.pairwise_queue_sort _) hdependents (Nat.le_add_right _ _)

theorem settledNames_inPlace (names : List String) (edges : List Edge) :
    InPlace names edges (settledNames names edges) := by
  rw [settledNames_eq]
  exact settle_inPlace names.length .nil

theorem mem_settledNames {a : String} : a ∈ settledNames names edges ↔ a ∈ names ∧ ¬Blocked names edges a := by
  rw [settledNames_eq, mem_settle]

end Taking

end AcornCatalog.Dependency
