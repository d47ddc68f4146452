import AcornCatalog.Proofs.Text.Line
import AcornCatalog.Proofs.Text.Scan

/-! Searches that keep to a line. Where a reader reads the same with a line feed and anything behind it, no occurrence
crosses a line feed and none is lost to one that would: a text is searched line by line. -/

namespace AcornCatalog.Text

open Reader

variable {α : Type} {r : Reader α} {more : List Char}

/-- The line ends where the code does, and `more` is on the lines below. -/
def AtLineEnd (more _code tail : List Char) : Prop := tail = '\n' :: more

/-- The reader sees nothing but its own line, and needs something of it. -/
structure KeepsToLine (r : Reader α) : Prop where
  steady : ∀ more, Steady (AtLineEnd more) r
  refuses : r [] = none

theorem passes_atLineEnd {p : Char → Bool} (hp : p '\n' = false) : Passes (AtLineEnd more) p where
  step _ _ _ _ hend := hend
  stop c tail hend := by
    obtain ⟨rfl, -⟩ := List.cons.inj hend
    exact hp

theorem steady_wordEnd : Steady (AtLineEnd more) wordEnd := .wordEnd (passes_atLineEnd rfl)

/-! ### Around a line feed -/

section Feed

variable {probe : Probe α} {post : List Char}

/-- What is found in front of a line feed and what is found behind it, if the probe does not look beyond it. -/
theorem occurrencesFrom_feed (hagrees : ∀ before text, Agrees probe ('\n' :: post) before text)
    (hnil : ∀ before, probe before [] = none) (front : List Char) (before : Option Char) (column : Nat) {covered : Nat}
    (hcovered : covered ≤ front.length) :
    occurrencesFrom probe before column covered (front ++ '\n' :: post) =
      occurrencesFrom probe before column covered front ++
        occurrencesFrom probe (some '\n') (column + front.length + 1) 0 post := by
  induction front generalizing before column covered with
  | nil =>
    obtain rfl := Nat.le_zero.mp hcovered
    have hnone : probe before ('\n' :: post) = none := by
      rcases hagrees before [] with ⟨a, left, hread, -⟩ | ⟨-, hnone⟩
      · rw [hnil] at hread
        cases hread
      · exact hnone
    simp only [List.nil_append, occurrencesFrom, hnone]
    rfl
  | cons c front ih =>
    have hcolumn : column + (c :: front).length + 1 = column + 1 + front.length + 1 := by
      rw [List.length_cons]
      omega
    rw [List.cons_append, hcolumn]
    cases covered with
    | succ covered => exact ih (some c) (column + 1) (Nat.le_of_succ_le_succ hcovered)
    | zero =>
      rcases hagrees before (c :: front) with ⟨a, left, hread, hmore⟩ | ⟨hread, hmore⟩
      · have hlength : (front ++ '\n' :: post).length - (left ++ '\n' :: post).length = front.length - left.length := by
          simp only [List.length_append]
          omega
        rw [List.cons_append] at hmore
        simp only [occurrencesFrom, hread, hmore, hlength]
        rw [ih (some c) (column + 1) (Nat.sub_le _ _), List.cons_append]
      · rw [List.cons_append] at hmore
        simp only [occurrencesFrom, hread, hmore]
        exact ih (some c) (column + 1) (Nat.zero_le _)

theorem map_value_occurrencesFrom_column (before : Option Char) (column covered : Nat) (cs : List Char) :
    (occurrencesFrom probe before column covered cs).map (·.value) =
      (occurrencesFrom probe before 0 covered cs).map (·.value) := by
  suffices ∀ k m, (occurrencesFrom probe before k covered cs).map (·.value) =
      (occurrencesFrom probe before m covered cs).map (·.value) from this column 0
  induction cs generalizing before covered with
  | nil => exact fun _ _ => rfl
  | cons c cs ih =>
    intro k m
    cases covered with
    | succ covered => exact ih (some c) covered (k + 1) (m + 1)
    | zero =>
      simp only [occurrencesFrom]
      split
      · exact congrArg (_ :: ·) (ih ..)
      · exact ih ..

end Feed

theorem KeepsToLine.agrees (h : KeepsToLine r) (before : Option Char) (text : List Char) :
    Agrees (atWordStart r) ('\n' :: more) before text := by
  unfold Agrees atWordStart
  split
  · exact Or.inr ⟨rfl, rfl⟩
  · rcases h.steady more text _ rfl with hnone | ⟨a, rest, tail, rfl, hread, hmore⟩
    · exact Or.inr hnone
    · exact Or.inl ⟨a, rest, hread, hmore⟩

theorem found_append_feed (h : KeepsToLine r) (front post : List Char) :
    found (atWordStart r) (front ++ '\n' :: post) = found (atWordStart r) front ++ found (atWordStart r) post := by
  have hnil : ∀ before, atWordStart r before [] = none := fun before => by
    unfold atWordStart
    split
    · rfl
    · exact h.refuses
  -- behind a line feed a word begins as it does at the front of a text
  have hstart : ∀ column, occurrencesFrom (atWordStart r) (some '\n') column 0 post =
      occurrencesFrom (atWordStart r) none column 0 post := by
    have hfeed : atWordStart r (some '\n') = atWordStart r none := rfl
    intro column
    cases post with
    | nil => rfl
    | cons c post => simp only [occurrencesFrom, hfeed]
  rw [found, occurrences, occurrencesFrom_feed h.agrees hnil front none 0 (Nat.zero_le _), List.map_append, hstart]
  exact congrArg (_ ++ ·) (map_value_occurrencesFrom_column none _ 0 post)

/-- Whole words are found in lines that are joined as they are found in each of them. -/
theorem found_joinLines (h : KeepsToLine r) (ls : List Line) :
    found (atWordStart r) (joinLines ls) = ls.flatMap (found (atWordStart r)) := by
  induction ls with
  | nil => rfl
  | cons l ls ih =>
    cases ls with
    | nil => rw [joinLines_singleton, List.flatMap_singleton]
    | cons m ls =>
      rw [joinLines_cons (List.cons_ne_nil _ _), found_append_feed h, ih]
      rfl

theorem found_eq_flatMap_cut (h : KeepsToLine r) (cs : List Char) :
    found (atWordStart r) cs = (cut '\n' cs).flatMap (found (atWordStart r)) := by
  rw [← found_joinLines h, joinLines, intercalate_cut]

end AcornCatalog.Text
