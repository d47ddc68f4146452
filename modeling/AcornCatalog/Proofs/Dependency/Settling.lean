import AcornCatalog.Dependency.Order
import Mathlib.Data.Fintype.Card
import Mathlib.Data.List.Perm.Subperm
import Mathlib.Data.Set.Finite.List
import Mathlib.Logic.Relation

/-! Putting names in place, the least that is ready first. The names that get a place are exactly those from which no
cycle of dependencies can be reached: a name that is put in place has all it depends on in front of it, and once none is
ready, every name left over leads to another one left over, so that a finite list of names must run into a cycle. -/

namespace AcornCatalog.Dependency

/-! ### Dependencies and cycles -/

/-- One of the names depends on another: an edge says so. -/
def DependsOn (names : List String) (edges : List Edge) (a b : String) : Prop :=
  ⟨a, b⟩ ∈ edges ∧ a ∈ names ∧ b ∈ names

/-- Following dependencies from a name can lead into a cycle; a name that depends on itself is one. -/
def Blocked (names : List String) (edges : List Edge) (a : String) : Prop :=
  ∃ b, Relation.ReflTransGen (DependsOn names edges) a b ∧ Relation.TransGen (DependsOn names edges) b b

section Cycles
variable {names : List String} {edges : List Edge} {a b : String}

theorem mem_keptEdges {e : Edge} :
    e ∈ keptEdges names edges ↔ DependsOn names edges e.source e.target := by
  simp [keptEdges, DependsOn]

/-- Dependencies, and with them cycles, hang on which names and edges there are and on nothing else about them. -/
theorem dependsOn_rearranged {names' : List String} {edges' : List Edge} (hnames : ∀ n, n ∈ names ↔ n ∈ names')
    (hedges : ∀ e, e ∈ edges ↔ e ∈ edges') : DependsOn names edges = DependsOn names' edges' := by
  funext a b
  simp only [DependsOn, hnames, hedges]

theorem blocked_rearranged {names' : List String} {edges' : List Edge} (hnames : ∀ n, n ∈ names ↔ n ∈ names')
    (hedges : ∀ e, e ∈ edges ↔ e ∈ edges') : Blocked names edges a ↔ Blocked names' edges' a := by
  simp only [Blocked, dependsOn_rearranged hnames hedges]

theorem blocked_congr {names' : List String} (h : ∀ n, n ∈ names ↔ n ∈ names') :
    Blocked names edges a ↔ Blocked names' edges a :=
  blocked_rearranged h fun _ => Iff.rfl

/-- A blocked name depends on a blocked one. -/
theorem Blocked.next (h : Blocked names edges a) : ∃ b, DependsOn names edges a b ∧ Blocked names edges b := by
  obtain ⟨c, hac, hcc⟩ := h
  rcases Relation.ReflTransGen.cases_head hac with rfl | ⟨b, hab, hbc⟩
  · obtain ⟨b, hab, hba⟩ := Relation.TransGen.head'_iff.mp hcc
    exact ⟨b, hab, a, hba, hcc⟩
  · exact ⟨b, hab, c, hbc, hcc⟩

theorem Blocked.mem (h : Blocked names edges a) : a ∈ names := by
  obtain ⟨b, hab, -⟩ := h.next
  exact hab.2.1

/-- Names that each depend on another of them are blocked: there are finitely many. -/
theorem blocked_of_forall_next {P : String → Prop} (hP : ∀ a, P a → ∃ b, DependsOn names edges a b ∧ P b) (ha : P a) :
    Blocked names edges a := by
  by_contra hfree
  -- What can be reached from `a` is finite, and no cycle is among it, so following dependencies comes to an end.
  let Reached := {b // b ∈ names ∧ Relation.ReflTransGen (DependsOn names edges) a b}
  let Behind : Reached → Reached → Prop := fun c b => Relation.TransGen (DependsOn names edges) b.1 c.1
  have hfin : Finite Reached := (names.finite_toSet.subset fun _ hb => hb.1).to_subtype
  have htrans : IsTrans Reached Behind := ⟨fun _ _ _ hcb hdc => hdc.trans hcb⟩
  have hirrefl : Std.Irrefl Behind := ⟨fun b hbb => hfree ⟨b.1, b.2.2, hbb⟩⟩
  have hwf : WellFounded Behind := Finite.wellFounded_of_trans_of_irrefl Behind
  obtain ⟨b₀, hab₀, -⟩ := hP a ha
  obtain ⟨⟨m, hm, ham⟩, hPm, hlast⟩ := hwf.has_min {b | P b.1} ⟨⟨a, hab₀.2.1, .refl⟩, ha⟩
  obtain ⟨b, hmb, hPb⟩ := hP m hPm
  exact hlast ⟨b, hmb.2.2, ham.tail hmb⟩ hPb (.single hmb)

end Cycles

/-! ### Putting names in place -/

/-- Whether a name has not come yet while all that it depends on has. -/
def isReady (edges : List Edge) (done : List String) (name : String) : Bool :=
  !done.contains name && edges.all fun e => e.source != name || done.contains e.target

/-- The least of some names. -/
def least? : List String → Option String
  | [] => none
  | name :: rest => some (rest.foldl (fun a b => if b < a then b else a) name)

/-- Adds the least name that is ready, `n` times over or until none is. -/
def settle (names : List String) (edges : List Edge) : Nat → List String → List String
  | 0, done => done
  | n + 1, done =>
    match least? (names.filter (isReady edges done)) with
    | none => done
    | some name => settle names edges n (done ++ [name])

section Settling
variable {names done : List String} {edges : List Edge} {a : String}

theorem isReady_iff : isReady (keptEdges names edges) done a = true ↔
    a ∉ done ∧ ∀ b, DependsOn names edges a b → b ∈ done := by
  simp only [isReady, Bool.and_eq_true, Bool.not_eq_true', List.contains_eq_mem, decide_eq_false_iff_not,
    List.all_eq_true, Bool.or_eq_true, bne_iff_ne, ne_eq, decide_eq_true_eq]
  refine and_congr_right fun _ => ⟨fun h b hb => ?_, fun h e he => ?_⟩
  · exact (h ⟨a, b⟩ (mem_keptEdges.mpr hb)).resolve_left (not_not_intro rfl)
  · by_cases hs : e.source = a
    · exact Or.inr (h e.target (hs ▸ mem_keptEdges.mp he))
    · exact Or.inl hs

theorem least?_eq_none {l : List String} : least? l = none ↔ l = [] := by
  cases l <;> simp [least?]

theorem least?_mem {l : List String} (h : least? l = some a) : a ∈ l := by
  cases l with
  | nil => cases h
  | cons b l =>
    simp only [least?, Option.some.injEq] at h
    -- Whatever the fold holds is the name it started with or one of those it has passed.
    suffices hfold : ∀ (l : List String) (b : String), l.foldl (fun a b => if b < a then b else a) b ∈ b :: l from
      h ▸ hfold l b
    intro l
    induction l with
    | nil => simp
    | cons c l ih =>
      intro b
      rw [List.foldl_cons]
      rcases List.mem_cons.mp (ih (if c < b then c else b)) with heq | hmem
      · rw [heq]
        split <;> simp
      · exact List.mem_cons_of_mem _ (List.mem_cons_of_mem _ hmem)

theorem least?_le {l : List String} {b : String} (h : least? l = some a) (hb : b ∈ l) : a ≤ b := by
  cases l with
  | nil => cases h
  | cons c l =>
    simp only [least?, Option.some.injEq] at h
    -- The fold holds a name that is no greater than the one it started with or any it has passed.
    suffices hfold : ∀ (l : List String) (c : String), ∀ b ∈ c :: l,
        l.foldl (fun a b => if b < a then b else a) c ≤ b from h ▸ hfold l c b hb
    intro l
    induction l with
    | nil =>
      intro c b hb
      rw [List.mem_singleton.mp hb]
      exact String.le_refl c
    | cons d l ih =>
      intro c b hb
      rw [List.foldl_cons]
      have hstart := ih (if d < c then d else c) _ (List.mem_cons_self ..)
      have hboth : (if d < c then d else c) ≤ c ∧ (if d < c then d else c) ≤ d := by
        split
        · next hlt => exact ⟨String.not_lt.mp (String.lt_asymm hlt), String.le_refl d⟩
        · next hge => exact ⟨String.le_refl c, String.not_lt.mp hge⟩
      rcases List.mem_cons.mp hb with rfl | hb
      · exact String.le_trans hstart hboth.1
      · rcases List.mem_cons.mp hb with rfl | hb
        · exact String.le_trans hstart hboth.2
        · exact ih _ b (List.mem_cons_of_mem _ hb)

theorem least?_eq_some {l : List String} (ha : a ∈ l) (hle : ∀ b ∈ l, a ≤ b) : least? l = some a := by
  cases h : least? l with
  | none =>
    rw [least?_eq_none.mp h] at ha
    cases ha
  | some b => rw [String.le_antisymm (least?_le h ha) (hle b (least?_mem h))]

/-- What holds of the names put in place so far: they are distinct, none of them is blocked, and what one of them
    depends on stands in front of it. -/
structure InPlace (names : List String) (edges : List Edge) (done : List String) : Prop where
  distinct : done.Nodup
  known : done ⊆ names
  free : ∀ a ∈ done, ¬Blocked names edges a
  behind : ∀ before a after, done = before ++ a :: after → ∀ b, DependsOn names edges a b → b ∈ before

theorem InPlace.nil : InPlace names edges [] := ⟨.nil, by simp, by simp, by simp⟩

/-- A name that is ready can be put in place. -/
theorem InPlace.snoc (h : InPlace names edges done) (ha : a ∈ names)
    (hready : isReady (keptEdges names edges) done a = true) : InPlace names edges (done ++ [a]) := by
  obtain ⟨hnew, hdeps⟩ := isReady_iff.mp hready
  refine ⟨?_, ?_, ?_, ?_⟩
  · exact h.distinct.append (List.nodup_singleton a) (by simpa using hnew)
  · exact List.append_subset.mpr ⟨h.known, by simpa using ha⟩
  · intro c hc hblocked
    rcases List.mem_append.mp hc with hc | hc
    · exact h.free c hc hblocked
    · obtain rfl := List.mem_singleton.mp hc
      obtain ⟨b, hcb, hb⟩ := hblocked.next
      exact h.free b (hdeps b hcb) hb
  · intro before c after heq b hcb
    rcases List.eq_nil_or_concat after with rfl | ⟨after, last, rfl⟩
    · obtain ⟨rfl, hac⟩ := List.append_inj' heq rfl
      obtain rfl := List.singleton_inj.mp hac
      exact hdeps b hcb
    · have heq' : done ++ [a] = (before ++ c :: after) ++ [last] := by simpa using heq
      exact h.behind before c after (List.append_inj' heq' rfl).1 b hcb

theorem settle_inPlace (n : Nat) (h : InPlace names edges done) :
    InPlace names edges (settle names (keptEdges names edges) n done) := by
  induction n generalizing done with
  | zero => exact h
  | succ n ih =>
    rw [settle]
    split
    · exact h
    · rename_i a hleast
      obtain ⟨ha, hready⟩ := List.mem_filter.mp (least?_mem hleast)
      exact ih (h.snoc ha hready)

/-- Enough steps leave no name ready. -/
theorem settle_stuck (n : Nat) (h : InPlace names edges done) (hn : names.length ≤ n + done.length) :
    ∀ a ∈ names, isReady (keptEdges names edges) (settle names (keptEdges names edges) n done) a = false := by
  induction n generalizing done with
  | zero =>
    intro a ha
    have hperm : done.Perm names := (h.distinct.subperm h.known).perm_of_length_le (by omega)
    rw [Bool.eq_false_iff]
    exact fun hready => (isReady_iff.mp hready).1 (hperm.mem_iff.mpr ha)
  | succ n ih =>
    rw [settle]
    split
    · rename_i hnone
      simpa using least?_eq_none.mp hnone
    · rename_i a hleast
      obtain ⟨ha, hready⟩ := List.mem_filter.mp (least?_mem hleast)
      refine ih (h.snoc ha hready) ?_
      rw [List.length_append, List.length_singleton]
      omega

/-- The names that are put in place are those that are not blocked. -/
theorem mem_settle : a ∈ settle names (keptEdges names edges) names.length [] ↔ a ∈ names ∧ ¬Blocked names edges a := by
  have hplace : InPlace names edges (settle names (keptEdges names edges) names.length []) := settle_inPlace _ .nil
  refine ⟨fun h => ⟨hplace.known h, hplace.free a h⟩, ?_⟩
  rintro ⟨ha, hfree⟩
  by_contra hout
  refine hfree (blocked_of_forall_next
    (P := fun b => b ∈ names ∧ b ∉ settle names (keptEdges names edges) names.length []) ?_ ⟨ha, hout⟩)
  rintro b ⟨hb, hbout⟩
  have hstuck :
      isReady (keptEdges names edges) (settle names (keptEdges names edges) names.length []) b = false :=
    settle_stuck names.length .nil (Nat.le_add_right _ _) b hb
  by_contra hnone
  refine Bool.eq_false_iff.mp hstuck (isReady_iff.mpr ⟨hbout, fun c hbc => ?_⟩)
  by_contra hc
  exact hnone ⟨c, hbc, hbc.2.2, hc⟩

theorem blocked_iff : Blocked names edges a ↔
    a ∈ names ∧ a ∉ settle names (keptEdges names edges) names.length [] := by
  refine ⟨fun h => ⟨h.mem, fun ha => (mem_settle.mp ha).2 h⟩, fun ⟨ha, hout⟩ => ?_⟩
  by_contra hfree
  exact hout (mem_settle.mpr ⟨ha, hfree⟩)

instance : DecidablePred (Blocked names edges) := fun _ => decidable_of_iff _ blocked_iff.symm

end Settling

end AcornCatalog.Dependency
