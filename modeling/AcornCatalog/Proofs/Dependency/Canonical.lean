import AcornCatalog.Proofs.Dependency.Order
import Mathlib.Data.List.Lex

/-! One order for one set of items. Of all arrangements of the names that can be put in place, each behind what it
depends on, the one that comes out is the least: wherever another arrangement goes on with a different name, that name
is ready there, and the least of the ready names was taken. So two lists of the same items, with the same dependencies
in any arrangement, come out the same. -/

namespace AcornCatalog.Dependency

/-! ### Arrangements -/

/-- The names in an order in which, of two that an edge joins, the target comes before the source. -/
structure Arranges (edges : List Edge) (names order : List String) : Prop where
  perm : order.Perm names
  before : ∀ e ∈ edges, e.source ∈ names → e.target ∈ names → [e.target, e.source].Sublist order

section Arrangements

variable {names done : List String} {edges : List Edge} {a b : String}

theorem mem_of_pair_sublist {before after : List String} (hd : (before ++ a :: after).Nodup)
    (h : [b, a].Sublist (before ++ a :: after)) : b ∈ before := by
  obtain ⟨front, back, hpair, hfront, hback⟩ := List.sublist_append_iff.mp h
  have hnew : a ∉ after := (List.nodup_cons.mp hd.of_append_right).1
  cases front with
  | nil =>
    obtain rfl : [b, a] = back := hpair
    rcases List.sublist_cons_iff.mp hback with hafter | ⟨rest, heq, hafter⟩
    · exact absurd (hafter.subset (by simp)) hnew
    · obtain ⟨-, rfl⟩ := List.cons.inj heq
      exact absurd (hafter.subset (by simp)) hnew
  | cons c front =>
    obtain ⟨rfl, -⟩ := List.cons.inj hpair
    exact hfront.subset (by simp)

/-- What a settled name depends on is settled too. -/
theorem mem_settledNames_of_dependsOn (ha : a ∈ settledNames names edges) (hab : DependsOn names edges a b) :
    b ∈ settledNames names edges := by
  obtain ⟨before, after, hsplit⟩ := List.append_of_mem ha
  have hb := (settledNames_inPlace names edges).behind before a after hsplit b hab
  rw [hsplit]
  exact List.mem_append_left _ hb

theorem arranges_settledNames (names : List String) (edges : List Edge) :
    Arranges edges (settledNames names edges) (settledNames names edges) where
  perm := .refl _
  before := by
    intro e he hsource htarget
    have hplace := settledNames_inPlace names edges
    obtain ⟨before, after, hsplit⟩ := List.append_of_mem hsource
    have hb := hplace.behind before e.source after hsplit e.target ⟨he, hplace.known hsource, hplace.known htarget⟩
    rw [hsplit]
    exact (List.singleton_sublist.mpr hb).append (List.singleton_sublist.mpr (List.mem_cons_self ..))

/-- In any arrangement of the settled names each is in place. -/
theorem Arranges.inPlace {order : List String} (h : Arranges edges (settledNames names edges) order) :
    InPlace names edges order where
  distinct := h.perm.nodup_iff.mpr (settledNames_inPlace names edges).distinct
  known := fun _ hn => (settledNames_inPlace names edges).known (h.perm.subset hn)
  free := fun n hn => (settledNames_inPlace names edges).free n (h.perm.subset hn)
  behind := by
    rintro before a after rfl b hab
    have hd := h.perm.nodup_iff.mpr (settledNames_inPlace names edges).distinct
    have ha : a ∈ settledNames names edges := h.perm.subset (by simp)
    exact mem_of_pair_sublist hd (h.before ⟨a, b⟩ hab.1 ha (mem_settledNames_of_dependsOn ha hab))

end Arrangements

/-! ### The least arrangement -/

section Least

variable {names done : List String} {edges : List Edge} {a b : String}

theorem prefix_settle (n : Nat) (done : List String) : done <+: settle names edges n done := by
  induction n generalizing done with
  | zero => exact List.prefix_refl done
  | succ n ih =>
    rw [settle]
    split
    · exact List.prefix_refl done
    · next a _ => exact (List.prefix_append done [a]).trans (ih (done ++ [a]))

theorem append_eq_self_of_perm {rest : List String} (h : (done ++ rest).Perm done) : done ++ rest = done := by
  have hlength := h.length_eq
  rw [List.length_append, Nat.add_eq_left, List.length_eq_zero_iff] at hlength
  rw [hlength, List.append_nil]

/-- The name that goes on from the names in place is ready behind them. -/
theorem InPlace.ready_next {rest : List String} (h : InPlace names edges (done ++ a :: rest)) :
    a ∈ names ∧ isReady (keptEdges names edges) done a = true := by
  refine ⟨h.known (by simp), isReady_iff.mpr ⟨fun hmem => ?_, h.behind done a rest rfl⟩⟩
  exact (List.nodup_append.mp h.distinct).2.2 a hmem a (List.mem_cons_self ..) rfl

/-- No arrangement that goes on from the names in place, and to the same names, is less than the one that is settled. -/
theorem settle_least (n : Nat) {rest : List String} (h : InPlace names edges (done ++ rest))
    (hperm : (done ++ rest).Perm (settle names (keptEdges names edges) n done)) :
    settle names (keptEdges names edges) n done = done ++ rest ∨
      List.Lex (· < ·) (settle names (keptEdges names edges) n done) (done ++ rest) := by
  induction n generalizing done rest with
  | zero => exact Or.inl (append_eq_self_of_perm hperm).symm
  | succ n ih =>
    rw [settle] at hperm ⊢
    split at hperm
    · exact Or.inl (append_eq_self_of_perm hperm).symm
    · next a hleast =>
      obtain ⟨tail, htail⟩ : done ++ [a] <+: settle names (keptEdges names edges) n (done ++ [a]) := prefix_settle n _
      obtain ⟨-, hready⟩ := List.mem_filter.mp (least?_mem hleast)
      have hnew : a ∉ done := (isReady_iff.mp hready).1
      cases rest with
      | nil =>
        rw [List.append_nil] at hperm
        exact absurd (hperm.symm.subset (htail ▸ by simp)) hnew
      | cons b rest =>
        have hle : a ≤ b := least?_le hleast (List.mem_filter.mpr h.ready_next)
        by_cases hab : a = b
        · subst hab
          have hsplit : done ++ a :: rest = done ++ [a] ++ rest := by simp
          rw [hsplit] at h hperm ⊢
          exact ih h hperm
        · right
          rw [← htail, List.append_assoc]
          exact List.Lex.append_left _ (.rel (String.not_le.mp fun hba => hab (String.le_antisymm hle hba))) done

theorem settledNames_least {order : List String} (h : InPlace names edges order)
    (hperm : order.Perm (settledNames names edges)) :
    settledNames names edges = order ∨ List.Lex (· < ·) (settledNames names edges) order := by
  rw [settledNames_eq] at hperm ⊢
  exact settle_least names.length (List.nil_append order ▸ h) hperm

end Least

/-! ### Other arrangements of the input -/

section Rearranged

variable {names names' : List String} {edges edges' : List Edge}

theorem InPlace.rearranged {order : List String} (hnames : ∀ n, n ∈ names' ↔ n ∈ names)
    (hedges : ∀ e, e ∈ edges' ↔ e ∈ edges) (h : InPlace names edges order) : InPlace names' edges' order where
  distinct := h.distinct
  known := fun n hn => (hnames n).mpr (h.known hn)
  free := fun n hn hblocked => h.free n hn ((blocked_rearranged hnames hedges).mp hblocked)
  behind := by
    rw [dependsOn_rearranged hnames hedges]
    exact h.behind

/-- The names are settled in one order, whichever way they and their dependencies are arranged: each of the two orders
    is an arrangement that the other one is not greater than. -/
theorem settledNames_rearranged (hnames : ∀ n, n ∈ names' ↔ n ∈ names) (hedges : ∀ e, e ∈ edges' ↔ e ∈ edges) :
    settledNames names' edges' = settledNames names edges := by
  have hplace := settledNames_inPlace names edges
  have hplace' := settledNames_inPlace names' edges'
  have hperm : (settledNames names' edges').Perm (settledNames names edges) := by
    rw [List.perm_ext_iff_of_nodup hplace'.distinct hplace.distinct]
    intro n
    rw [mem_settledNames, mem_settledNames, hnames, blocked_rearranged hnames hedges]
  rcases settledNames_least (hplace.rearranged hnames hedges) hperm.symm with heq | hless
  · exact heq
  · rcases settledNames_least (hplace'.rearranged (fun n => (hnames n).symm) fun e => (hedges e).symm) hperm with
      heq | hless'
    · exact heq.symm
    · exact absurd hless' ((List.Lex.asymm fun a b : String => a < b).asymm _ _ hless)

end Rearranged

/-! ### Items -/

section Items

variable {α : Type} {name : α → String} {items items' : List α} {edges edges' : List Edge}

/-- Of one name there is at most one item, so there is nothing to rearrange. -/
theorem filter_name_perm (hd : (items.map name).Nodup) (h : items'.Perm items) (n : String) :
    items'.filter (name · == n) = items.filter (name · == n) := by
  have hone : ∀ a ∈ items'.filter (name · == n), ∀ b ∈ items.filter (name · == n), a = b := by
    intro a ha b hb
    obtain ⟨ha, han⟩ := List.mem_filter.mp ha
    obtain ⟨hb, hbn⟩ := List.mem_filter.mp hb
    exact List.inj_on_of_nodup_map hd (h.subset ha) hb ((beq_iff_eq.mp han).trans (beq_iff_eq.mp hbn).symm)
  have hall (l : List α) : l.Pairwise fun _ _ => True := List.pairwise_of_forall fun _ _ => trivial
  exact List.Perm.eq_of_pairwise (fun a b ha hb _ _ => hone a ha b hb) (hall _) (hall _) (h.filter _)

theorem mergeSort_name_perm {left left' : List α} (hd : (left.map name).Nodup) (h : left'.Perm left) :
    left'.mergeSort (fun a b => decide (name a ≤ name b)) = left.mergeSort fun a b => decide (name a ≤ name b) := by
  have hsorted := stablySorted_mergeSort name left
  have hsorted' := stablySorted_mergeSort name left'
  refine List.Perm.eq_of_pairwise (fun a b ha hb hab hba => ?_) hsorted'.ascending hsorted.ascending
    (hsorted'.perm.trans (h.trans hsorted.perm.symm))
  have ha : a ∈ left := h.subset (hsorted'.perm.subset ha)
  exact List.inj_on_of_nodup_map hd ha (hsorted.perm.subset hb) (String.le_antisymm hab hba)

theorem order_rearranged (hd : (items.map name).Nodup) (hitems : items'.Perm items)
    (hedges : ∀ e, e ∈ edges' ↔ e ∈ edges) : order name items' edges' = order name items edges := by
  have hnames : ∀ n, n ∈ (items'.map name) ↔ n ∈ (items.map name) := fun n =>
    (hitems.map name).mem_iff
  simp only [order_eq, settledNames_rearranged hnames hedges, filter_name_perm hd hitems]
  congr 1
  exact mergeSort_name_perm (hd.sublist (List.filter_sublist.map name)) (hitems.filter _)

/-- Items of distinct names come out in two parts. In front stand those whose names are not blocked, in the least of all
    arrangements that put what a name depends on before it; behind stand the blocked ones. And neither part hangs on the
    order of the items, nor on the order of the edges or how often one is repeated. -/
theorem order_canonical (name : α → String) (items : List α) (edges : List Edge) (hd : (items.map name).Nodup) :
    (∃ front back, order name items edges = front ++ back ∧
      (∀ i ∈ front, ¬Blocked (items.map name) edges (name i)) ∧
      (∀ i ∈ back, Blocked (items.map name) edges (name i)) ∧
      Arranges edges (front.map name) (front.map name) ∧
      ∀ arranged, Arranges edges (front.map name) arranged →
        front.map name = arranged ∨ List.Lex (· < ·) (front.map name) arranged) ∧
    ∀ items' edges', items'.Perm items → (∀ e, e ∈ edges' ↔ e ∈ edges) →
      order name items' edges' = order name items edges := by
  refine ⟨?_, fun items' edges' hitems hedges => order_rearranged hd hitems hedges⟩
  have hnames : ((settledNames (items.map name) edges).filterMap fun n =>
      (items.filter fun i => name i == n).getLast?).map name = settledNames (items.map name) edges :=
    map_name_filterMap_last fun n hn => (mem_settledNames.mp hn).1
  refine ⟨_, _, order_eq name items edges, fun i hi => ?_, fun i hi => ?_, ?_, fun arranged harranged => ?_⟩
  · exact (mem_settledNames.mp (hnames ▸ List.mem_map_of_mem hi)).2
  · have hleft := List.mem_mergeSort.mp hi
    rw [filter_left_over] at hleft
    exact of_decide_eq_true (List.mem_filter.mp hleft).2
  · rw [hnames]
    exact arranges_settledNames _ _
  · rw [hnames] at harranged ⊢
    exact settledNames_least harranged.inPlace harranged.perm

/-- A name that depends on itself comes last, and of the others `zeta` waits for `eta` alone. -/
theorem order_canonical_loop :
    ["zeta", "beta", "loop", "eta"].Nodup ∧
      (["loop", "eta", "zeta", "beta"].Perm ["zeta", "beta", "loop", "eta"] ∧
      ∀ e, e ∈ [Edge.mk "zeta" "eta", ⟨"loop", "loop"⟩, ⟨"zeta", "eta"⟩] ↔
        e ∈ [Edge.mk "loop" "loop", ⟨"zeta", "eta"⟩]) ∧
      order id ["loop", "eta", "zeta", "beta"] [⟨"zeta", "eta"⟩, ⟨"loop", "loop"⟩, ⟨"zeta", "eta"⟩] =
        ["beta", "eta", "zeta", "loop"] := by
  have hd : (["zeta", "beta", "loop", "eta"].map id).Nodup := by decide
  have hitems : ["loop", "eta", "zeta", "beta"].Perm ["zeta", "beta", "loop", "eta"] := by decide
  have hedges : ∀ e, e ∈ [Edge.mk "zeta" "eta", ⟨"loop", "loop"⟩, ⟨"zeta", "eta"⟩] ↔
      e ∈ [Edge.mk "loop" "loop", ⟨"zeta", "eta"⟩] := by
    intro e
    simp only [List.mem_cons, List.not_mem_nil, or_false]
    tauto
  refine ⟨by decide, ⟨hitems, hedges⟩, ?_⟩
  rw [(order_canonical id _ _ hd).2 _ _ hitems hedges, order_eq, settledNames_eq]
  decide +kernel

end Items

end AcornCatalog.Dependency
