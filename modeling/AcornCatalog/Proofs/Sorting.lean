import AcornCatalog.Text.Sorted
import Mathlib.Data.List.Nodup

/-! Stable sorting. Those that are equal to one another are left as they stand, so whatever order a list has is kept
among equals; and whether one is among the first of a sorted list is told by how many are in front of it. Names that are
sorted without repetition make up the same list whenever they are the same names. -/

namespace AcornCatalog

variable {α : Type} {le : α → α → Bool} {l : List α}

/-- Those that sorting may leave as they stand are left as they stand. -/
theorem filter_mergeSort (htrans : ∀ a b c, le a b = true → le b c = true → le a c = true)
    (htotal : ∀ a b, (le a b || le b a) = true) {p : α → Bool}
    (hsame : ∀ a b, p a = true → p b = true → le a b = true) (l : List α) :
    (l.mergeSort le).filter p = l.filter p := by
  have hsorted : (l.filter p).Pairwise fun a b => le a b = true :=
    List.pairwise_filter.mpr (List.pairwise_of_forall hsame)
  -- they stay a sublist, and sorting loses none of them
  have hsub := (List.sublist_mergeSort htrans htotal hsorted List.filter_sublist).filter p
  rw [List.filter_filter] at hsub
  simp only [Bool.and_self] at hsub
  exact (hsub.eq_of_length ((List.mergeSort_perm l le).filter p).length_eq.symm).symm

theorem pairwise_mergeSort_stable (htrans : ∀ a b c, le a b = true → le b c = true → le a c = true)
    (htotal : ∀ a b, (le a b || le b a) = true) {R : α → α → Prop} (h : l.Pairwise R) :
    (l.mergeSort le).Pairwise fun a b => le a b = true ∧ (le b a = true → R a b) := by
  refine List.pairwise_iff_forall_sublist.mpr fun {a b} hpair => ?_
  have hab := List.pairwise_iff_forall_sublist.mp (List.pairwise_mergeSort htrans htotal l) hpair
  refine ⟨hab, fun hba => ?_⟩
  have hself : le a a = true := by simpa using htotal a a
  -- those equal to `a` stand as in the list, and `b` is one of them
  have hequal := hpair.filter fun c => le a c && le c a
  rw [filter_mergeSort htrans htotal] at hequal
  · simp only [List.filter_cons, List.filter_nil, hab, hba, hself, Bool.and_self, if_true] at hequal
    exact List.pairwise_iff_forall_sublist.mp h (hequal.trans List.filter_sublist)
  · intro c d hc hd
    exact htrans c a d (Bool.and_eq_true_iff.mp hc).2 (Bool.and_eq_true_iff.mp hd).1

/-- In a list in which each is in front of all that follow, the first `n` are those that have fewer than `n` in front of
    them. -/
theorem mem_take_iff_countP_lt {R : α → α → Prop} [DecidableRel R] (hasymm : ∀ a b, R a b → ¬R b a)
    (h : l.Pairwise R) {n : Nat} {r : α} : r ∈ l.take n ↔ r ∈ l ∧ l.countP (R · r) < n := by
  induction h generalizing n with
  | nil => simp
  | @cons a l hfirst hrest ih =>
    cases n with
    | zero => simp
    | succ n =>
      rw [List.take_succ_cons, List.mem_cons, List.mem_cons, ih]
      have hfront : l.countP (R · a) = 0 :=
        List.countP_eq_zero.mpr fun b hb => by simpa using hasymm a b (hfirst b hb)
      have hself : ¬R a a := fun haa => hasymm a a haa haa
      constructor
      · rintro (rfl | ⟨hr, hcount⟩)
        · simp [hfront, hself]
        · refine ⟨Or.inr hr, ?_⟩
          rw [List.countP_cons_of_pos (by simpa using hfirst r hr)]
          omega
      · rintro ⟨rfl | hr, hcount⟩
        · exact Or.inl rfl
        · rw [List.countP_cons_of_pos (by simpa using hfirst r hr)] at hcount
          exact Or.inr ⟨hr, by omega⟩

/-! ### Without repetition -/

theorem nodup_eraseDups {α : Type} [DecidableEq α] : ∀ l : List α, l.eraseDups.Nodup
  | [] => List.nodup_nil
  | a :: l => by
    rw [List.eraseDups_cons, List.nodup_cons]
    refine ⟨fun hmem => ?_, nodup_eraseDups (l.filter fun b => !b == a)⟩
    simpa using (List.mem_filter.mp (List.mem_eraseDups.mp hmem)).2
termination_by l => l.length
decreasing_by exact Nat.lt_succ_of_le (List.length_filter_le ..)

theorem sortedDistinct_congr {names names' : List String} (h : ∀ name, name ∈ names ↔ name ∈ names') :
    Text.sortedDistinct names = Text.sortedDistinct names' := by
  have hsorted (names : List String) : (Text.sortedDistinct names).Pairwise fun a b => decide (a ≤ b) = true := by
    refine List.pairwise_mergeSort (fun a b c hab hbc => ?_) (fun a b => ?_) _
    · exact decide_eq_true (String.le_trans (of_decide_eq_true hab) (of_decide_eq_true hbc))
    · simpa using String.le_total a b
  have hperm : names.eraseDups.Perm names'.eraseDups := by
    refine (List.perm_ext_iff_of_nodup (nodup_eraseDups _) (nodup_eraseDups _)).mpr fun name => ?_
    rw [List.mem_eraseDups, List.mem_eraseDups, h]
  refine List.Perm.eq_of_pairwise (fun a b _ _ hab hba => ?_) (hsorted names) (hsorted names') ?_
  · exact String.le_antisymm (of_decide_eq_true hab) (of_decide_eq_true hba)
  · exact (List.mergeSort_perm ..).trans (hperm.trans (List.mergeSort_perm ..).symm)

end AcornCatalog
