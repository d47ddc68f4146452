import AcornCatalog.Proofs.Text.Occurrence
import Mathlib.Data.List.Induction

/-! How a search goes through a text. Somewhere within a text, a search either stands free, so that its probe is tried
there, or some characters ahead belong to an occurrence that it found before. What is found is what the probe reads
where the search stands free; and where it does not, an occurrence reaches over from a place in front where it did. -/

namespace AcornCatalog.Text

variable {α : Type} {probe : Probe α} {rest : List Char} {before : Option Char} {column covered : Nat}

/-- How many characters behind `c` belong to the occurrence that begins with it, if one does. -/
def reach (probe : Probe α) (before : Option Char) (c : Char) (cs : List Char) : Nat :=
  match probe before (c :: cs) with
  | some (_, left) => cs.length - left.length
  | none => 0

/-- How many characters of `rest` belong to an occurrence that begins in the text in front of it. The first `covered`
    characters of that text belong to an occurrence already found. -/
def coveredBehind (probe : Probe α) (rest : List Char) : Option Char → Nat → List Char → Nat
  | _, covered, [] => covered
  | _, covered + 1, c :: front => coveredBehind probe rest (some c) covered front
  | before, 0, c :: front => coveredBehind probe rest (some c) (reach probe before c (front ++ rest)) front

theorem mem_occurrencesFrom_zero {c : Char} {cs : List Char} {o : Occurrence α} :
    o ∈ occurrencesFrom probe before column 0 (c :: cs) ↔
      (o.column = column ∧ ∃ left, probe before (c :: cs) = some (o.value, left)) ∨
        o ∈ occurrencesFrom probe (some c) (column + 1) (reach probe before c cs) cs := by
  obtain ⟨at_, value⟩ := o
  rw [occurrencesFrom, reach]
  cases hprobe : probe before (c :: cs) with
  | none => simp
  | some read =>
    obtain ⟨a, left⟩ := read
    simp only [List.mem_cons, Occurrence.mk.injEq, Option.some.injEq, Prod.mk.injEq, exists_and_left, exists_eq',
      and_true]
    exact or_congr_left (and_congr_right fun _ => eq_comm)

theorem getLast?_cons_or (c : Char) (front : List Char) (before : Option Char) :
    (c :: front).getLast?.or before = front.getLast?.or (some c) := by
  cases front with
  | nil => rfl
  | cons d front => simp [List.getLast?_cons]

theorem coveredBehind_of_le {front : List Char} (h : front.length ≤ covered) :
    coveredBehind probe rest before covered front = covered - front.length := by
  induction front generalizing before covered with
  | nil => rfl
  | cons c front ih =>
    cases covered with
    | zero => cases h
    | succ covered => rw [coveredBehind, ih (Nat.le_of_succ_le_succ h), List.length_cons, Nat.add_sub_add_right]

/-- A search goes through one part of the text after the other. -/
theorem coveredBehind_append (front more : List Char) :
    coveredBehind probe rest before covered (front ++ more) =
      coveredBehind probe rest (front.getLast?.or before)
        (coveredBehind probe (more ++ rest) before covered front) more := by
  induction front generalizing before covered with
  | nil => rfl
  | cons c front ih =>
    rw [getLast?_cons_or, List.cons_append]
    cases covered with
    | succ covered => exact ih
    | zero =>
      rw [coveredBehind, coveredBehind, List.append_assoc]
      exact ih

/-- What is found is what the probe reads where the search stands free. -/
theorem mem_occurrencesFrom_iff {cs : List Char} {o : Occurrence α} :
    o ∈ occurrencesFrom probe before column covered cs ↔
      ∃ front rest left, cs = front ++ rest ∧ rest ≠ [] ∧ o.column = column + front.length ∧
        coveredBehind probe rest before covered front = 0 ∧
          probe (front.getLast?.or before) rest = some (o.value, left) := by
  induction cs generalizing before column covered with
  | nil =>
    refine ⟨fun h => absurd h List.not_mem_nil, ?_⟩
    rintro ⟨front, rest, left, hcs, hne, -⟩
    exact absurd (List.append_eq_nil_iff.mp hcs.symm).2 hne
  | cons c cs ih =>
    -- the search goes on behind the first character, with some characters covered there
    have hbehind {next : Nat} (hnext : ∀ front rest, cs = front ++ rest →
        coveredBehind probe rest before covered (c :: front) = coveredBehind probe rest (some c) next front) :
        o ∈ occurrencesFrom probe (some c) (column + 1) next cs ↔
          ∃ front rest left, cs = front ++ rest ∧ rest ≠ [] ∧ o.column = column + (c :: front).length ∧
            coveredBehind probe rest before covered (c :: front) = 0 ∧
              probe ((c :: front).getLast?.or before) rest = some (o.value, left) := by
      rw [ih]
      refine exists_congr fun front => exists_congr fun rest => exists_congr fun left => and_congr_right fun hcs => ?_
      rw [hnext front rest hcs, getLast?_cons_or, List.length_cons, Nat.add_assoc, Nat.add_comm 1]
    cases covered with
    | succ covered =>
      rw [occurrencesFrom, hbehind fun _ _ _ => rfl]
      constructor
      · rintro ⟨front, rest, left, rfl, h⟩
        exact ⟨c :: front, rest, left, rfl, h⟩
      · rintro ⟨front, rest, left, hcs, hne, hcolumn, hfree, hread⟩
        cases front with
        | nil => cases hfree
        | cons d front =>
          obtain ⟨rfl, rfl⟩ := List.cons.inj hcs
          exact ⟨front, rest, left, rfl, hne, hcolumn, hfree, hread⟩
    | zero =>
      rw [mem_occurrencesFrom_zero, hbehind fun front rest hcs => by rw [coveredBehind, hcs]]
      constructor
      · rintro (⟨hcolumn, left, hread⟩ | ⟨front, rest, left, rfl, h⟩)
        · exact ⟨[], c :: cs, left, rfl, List.cons_ne_nil _ _, hcolumn, rfl, hread⟩
        · exact ⟨c :: front, rest, left, rfl, h⟩
      · rintro ⟨front, rest, left, hcs, hne, hcolumn, hfree, hread⟩
        cases front with
        | nil =>
          obtain rfl : c :: cs = rest := hcs
          exact Or.inl ⟨hcolumn, left, hread⟩
        | cons d front =>
          obtain ⟨rfl, rfl⟩ := List.cons.inj hcs
          exact Or.inr ⟨front, rest, left, rfl, hne, hcolumn, hfree, hread⟩

/-! ### A whole text -/

/-- A search of the text `front ++ rest` tries its probe at the beginning of `rest`. -/
def Free (probe : Probe α) (front rest : List Char) : Prop := coveredBehind probe rest none 0 front = 0

theorem mem_occurrences_iff {cs : List Char} {o : Occurrence α} :
    o ∈ occurrences probe cs ↔
      ∃ front rest left, cs = front ++ rest ∧ rest ≠ [] ∧ o.column = front.length ∧ Free probe front rest ∧
        probe front.getLast? rest = some (o.value, left) := by
  simp only [occurrences, mem_occurrencesFrom_iff, Free, Option.or_none, Nat.zero_add]

theorem mem_found_iff {cs : List Char} {a : α} :
    a ∈ found probe cs ↔
      ∃ front rest left, cs = front ++ rest ∧ rest ≠ [] ∧ Free probe front rest ∧
        probe front.getLast? rest = some (a, left) := by
  rw [found, List.mem_map]
  constructor
  · rintro ⟨o, ho, rfl⟩
    obtain ⟨front, rest, left, hcs, hne, -, h⟩ := mem_occurrences_iff.mp ho
    exact ⟨front, rest, left, hcs, hne, h⟩
  · rintro ⟨front, rest, left, hcs, hne, h⟩
    exact ⟨⟨front.length, a⟩, mem_occurrences_iff.mpr ⟨front, rest, left, hcs, hne, rfl, h⟩, rfl⟩

theorem Free.nil : Free probe [] rest := rfl

/-- Where the probe refuses, the search goes on to the next character. -/
theorem Free.pass {front : List Char} {c : Char} (h : Free probe front (c :: rest))
    (hnone : probe front.getLast? (c :: rest) = none) : Free probe (front ++ [c]) rest := by
  have hzero : coveredBehind probe ([c] ++ rest) none 0 front = 0 := h
  rw [Free, coveredBehind_append, hzero, coveredBehind, coveredBehind, reach, Option.or_none]
  simp [hnone]

/-- Within what the probe reads, the rest of that is covered. -/
theorem Free.covered_of_read {front x y left : List Char} {a : α} (h : Free probe front (x ++ y ++ left))
    (hread : probe front.getLast? (x ++ y ++ left) = some (a, left)) (hne : x ≠ []) :
    coveredBehind probe (y ++ left) none 0 (front ++ x) = y.length := by
  obtain ⟨c, x, rfl⟩ := List.exists_cons_of_ne_nil hne
  have hzero : coveredBehind probe (c :: x ++ (y ++ left)) none 0 front = 0 := by
    rw [← List.append_assoc]
    exact h
  have hreach : reach probe front.getLast? c (x ++ (y ++ left)) = x.length + y.length := by
    rw [List.append_assoc, List.cons_append] at hread
    rw [reach, hread]
    simp only [List.length_append]
    omega
  rw [coveredBehind_append, hzero, coveredBehind, Option.or_none, hreach,
    coveredBehind_of_le (Nat.le_add_right _ _), Nat.add_sub_cancel_left]

/-- Characters that belong to an occurrence are passed over. -/
theorem free_of_covered {front x : List Char} (h : coveredBehind probe (x ++ rest) none 0 front = x.length) :
    Free probe (front ++ x) rest := by
  rw [Free, coveredBehind_append, h, coveredBehind_of_le (Nat.le_refl _), Nat.sub_self]

/-- Characters at which nothing begins are passed over. -/
theorem Free.append {front x : List Char} (h : Free probe front (x ++ rest))
    (hnone : ∀ c ∈ x, ∀ before cs, probe before (c :: cs) = none) : Free probe (front ++ x) rest := by
  induction x generalizing front with
  | nil => rwa [List.append_nil]
  | cons c x ih =>
    have hnext := ih (h.pass (hnone c (List.mem_cons_self ..) _ _)) fun d hd => hnone d (List.mem_cons_of_mem _ hd)
    rwa [List.append_assoc, List.singleton_append] at hnext

/-- Where the search does not stand free, an occurrence reaches over from a place in front where it did. -/
theorem exists_reaching {front : List Char} (h : ¬Free probe front rest) :
    ∃ upper lower a left, front = upper ++ lower ∧ lower ≠ [] ∧ Free probe upper (lower ++ rest) ∧
      probe upper.getLast? (lower ++ rest) = some (a, left) ∧ left.length < rest.length ∧
        coveredBehind probe rest none 0 front = rest.length - left.length := by
  induction front using List.reverseRecOn generalizing rest with
  | nil => exact absurd Free.nil h
  | append_singleton front c ih =>
    have hlast : coveredBehind probe rest none 0 (front ++ [c]) =
        coveredBehind probe rest front.getLast? (coveredBehind probe (c :: rest) none 0 front) [c] := by
      rw [coveredBehind_append, Option.or_none]
      rfl
    rw [Free, hlast] at h
    rw [hlast]
    -- the occurrence begins with the last character of the front, or covers that too and begins further in front
    cases hcovered : coveredBehind probe (c :: rest) none 0 front with
    | zero =>
      simp only [hcovered, coveredBehind, reach, List.nil_append] at h ⊢
      cases hread : probe front.getLast? (c :: rest) with
      | none => simp [hread] at h
      | some read =>
        obtain ⟨a, left⟩ := read
        simp only [hread] at h
        exact ⟨front, [c], a, left, rfl, List.cons_ne_nil _ _, hcovered, hread, by omega, rfl⟩
    | succ more =>
      have hbusy : ¬Free probe front (c :: rest) := fun hfree => by
        rw [Free, hcovered] at hfree
        cases hfree
      obtain ⟨upper, lower, a, left, rfl, -, hfree, hread, -, hlength⟩ := ih hbusy
      simp only [hcovered, coveredBehind] at h ⊢
      rw [hcovered, List.length_cons] at hlength
      have hlower : lower ++ [c] ≠ [] := List.append_ne_nil_of_right_ne_nil lower (List.cons_ne_nil c [])
      refine ⟨upper, lower ++ [c], a, left, List.append_assoc .., hlower, ?_, ?_, by omega, by omega⟩
      · simpa using hfree
      · simpa using hread

/-! ### Searches that do not look back -/

section Anywhere

variable {α : Type} {r : Reader α} {x rest : List Char} {a : α}

/-- What such a search finds depends on neither what is in front of the text nor where it begins. -/
theorem map_value_occurrencesFrom (before : Option Char) (column covered : Nat) (cs : List Char) :
    (occurrencesFrom (anywhere r) before column covered cs).map (·.value) = found (anywhere r) (cs.drop covered) := by
  induction cs generalizing before column covered with
  | nil => cases covered <;> rfl
  | cons c cs ih =>
    cases covered with
    | succ covered => exact ih ..
    | zero =>
      simp only [found, occurrences, List.drop_zero, occurrencesFrom, anywhere]
      split
      · exact congrArg (_ :: ·) ((ih ..).trans (ih ..).symm)
      · exact (ih ..).trans (ih ..).symm

theorem found_cons_of_none {c : Char} {cs : List Char} (h : r (c :: cs) = none) :
    found (anywhere r) (c :: cs) = found (anywhere r) cs := by
  have hnext := map_value_occurrencesFrom (r := r) (some c) 1 0 cs
  rw [found, occurrences, occurrencesFrom, show anywhere r none (c :: cs) = none from h]
  exact hnext

theorem head?_found_of_read {c : Char} {cs : List Char} (h : r (c :: cs) = some (a, rest)) :
    (found (anywhere r) (c :: cs)).head? = some a := by
  rw [found, occurrences, occurrencesFrom, show anywhere r none (c :: cs) = some (a, rest) from h]
  rfl

/-- Behind what is read the search begins anew. -/
theorem found_append_of_read (h : r (x ++ rest) = some (a, rest)) (hne : x ≠ []) :
    found (anywhere r) (x ++ rest) = a :: found (anywhere r) rest := by
  obtain ⟨c, x, rfl⟩ := List.exists_cons_of_ne_nil hne
  have hnext := map_value_occurrencesFrom (r := r) (some c) 1 ((x ++ rest).length - rest.length) (x ++ rest)
  have hlength : (x ++ rest).length - rest.length = x.length := by simp
  rw [hlength, List.drop_left] at hnext
  rw [List.cons_append] at h ⊢
  rw [found, occurrences, occurrencesFrom, show anywhere r none (c :: (x ++ rest)) = some (a, rest) from h]
  simp only [hlength, List.map_cons, hnext]

theorem found_append_of_none (h : ∀ upper c lower, x = upper ++ c :: lower → r (c :: (lower ++ rest)) = none) :
    found (anywhere r) (x ++ rest) = found (anywhere r) rest := by
  induction x with
  | nil => rfl
  | cons c x ih =>
    rw [List.cons_append, found_cons_of_none (h [] c x rfl)]
    exact ih fun upper d lower hx => h (c :: upper) d lower (congrArg _ hx)

theorem map_value_first? (cs : List Char) : (first? r cs).map (·.value) = (found (anywhere r) cs).head? := by
  rw [found, List.head?_map]
  rfl

end Anywhere

/-! ### Texts with more behind them -/

section More

variable {α : Type} {probe : Probe α} {more : List Char} {a : α}

/-- The probe does the same whether or not more stands behind the text. -/
def Agrees (probe : Probe α) (more : List Char) (before : Option Char) (text : List Char) : Prop :=
  (∃ a left, probe before text = some (a, left) ∧ probe before (text ++ more) = some (a, left ++ more)) ∨
    (probe before text = none ∧ probe before (text ++ more) = none)

/-- The probe reads nothing in the text. -/
def Silent (probe : Probe α) (text : List Char) : Prop := ∀ s, s <:+ text → ∀ before, probe before s = none

theorem Agrees.read_append {before : Option Char} {text left : List Char} (h : Agrees probe more before text)
    (hread : probe before text = some (a, left)) : probe before (text ++ more) = some (a, left ++ more) := by
  rcases h with ⟨b, rest, hread', hmore⟩ | ⟨hread', -⟩
  · rw [hread] at hread'
    cases hread'
    exact hmore
  · rw [hread] at hread'
    cases hread'

theorem Agrees.reach_eq {before : Option Char} {c : Char} {cs : List Char} (h : Agrees probe more before (c :: cs)) :
    reach probe before c (cs ++ more) = reach probe before c cs := by
  rcases h with ⟨a, left, hread, hmore⟩ | ⟨hread, hmore⟩
  · rw [reach, reach, hread, ← List.cons_append, hmore]
    simp only [List.length_append]
    omega
  · rw [reach, reach, hread, ← List.cons_append, hmore]

/-- What is covered stays covered if the probe agrees wherever the search stands free. -/
theorem coveredBehind_append_behind {front rest : List Char}
    (h : ∀ upper lower, front = upper ++ lower → lower ≠ [] → Free probe upper (lower ++ rest) →
      Agrees probe more upper.getLast? (lower ++ rest)) :
    coveredBehind probe (rest ++ more) none 0 front = coveredBehind probe rest none 0 front := by
  induction front using List.reverseRecOn generalizing rest with
  | nil => rfl
  | append_singleton front c ih =>
    have hfront : coveredBehind probe ([c] ++ (rest ++ more)) none 0 front =
        coveredBehind probe ([c] ++ rest) none 0 front := by
      rw [← List.append_assoc]
      refine ih fun upper lower hsplit hne hfree => ?_
      have hagree := h upper (lower ++ [c]) (by rw [hsplit, List.append_assoc]) (by simp)
      simp only [List.append_assoc] at hagree
      exact hagree hfree
    rw [coveredBehind_append, coveredBehind_append, hfront, Option.or_none]
    cases hcovered : coveredBehind probe ([c] ++ rest) none 0 front with
    | succ covered => rfl
    | zero =>
      have hagree := h front [c] rfl (List.cons_ne_nil _ _) hcovered
      simp only [coveredBehind, List.nil_append]
      exact hagree.reach_eq

theorem Free.append_behind {front rest : List Char} (hfree : Free probe front rest)
    (h : ∀ upper lower, front = upper ++ lower → lower ≠ [] → Free probe upper (lower ++ rest) →
      Agrees probe more upper.getLast? (lower ++ rest)) : Free probe front (rest ++ more) :=
  (coveredBehind_append_behind h).trans hfree

/-- What is found in a text is found with more behind it, if the probe agrees up to where nothing more is read in the
    text. -/
theorem mem_found_append {text : List Char}
    (h : ∀ front rest, text = front ++ rest → rest ≠ [] → Agrees probe more front.getLast? rest ∨ Silent probe rest)
    (ha : a ∈ found probe text) : a ∈ found probe (text ++ more) := by
  obtain ⟨front, rest, left, rfl, hne, hfree, hread⟩ := mem_found_iff.mp ha
  -- nothing that reaches back to where something is read is silent
  have hagree {upper lower : List Char} (hsplit : front = upper ++ lower) :
      Agrees probe more upper.getLast? (lower ++ rest) := by
    refine (h upper (lower ++ rest) (by rw [hsplit, List.append_assoc]) (by simp [hne])).resolve_right fun hsilent => ?_
    rw [hsilent rest (List.suffix_append ..)] at hread
    cases hread
  have hbehind := hfree.append_behind fun upper lower hsplit _ _ => hagree hsplit
  have hmore := (hagree (List.append_nil front).symm).read_append hread
  exact mem_found_iff.mpr ⟨front, rest ++ more, left ++ more, List.append_assoc .., by simp [hne], hbehind, hmore⟩

end More

end AcornCatalog.Text
