import AcornCatalog.Declaration.Block
import AcornCatalog.Proofs.Text.Blank
import Mathlib.Data.List.Forall2

/-! Text moved left. All lines that are not blank lose as many blanks as the least indented of them has in front, so one of
them is left without any and there is nothing to lose a second time. -/

namespace AcornCatalog

open Text

/-! ### Lines -/

section Lines

variable {l : Line} {n : Nat}

/-- How far lines can be moved left. -/
def margin (ls : List Line) : Nat := ((ls.filter fun l => !allBlank l).map indentation).min?.getD 0

/-- A line without its first `n` characters, unless it is blank. -/
def moveLeft (n : Nat) (l : Line) : Line := if allBlank l then l else l.drop n

/-- The line has lost `n` blanks in front, unless it is blank. -/
inductive MovedLeft (n : Nat) : Line → Line → Prop where
  | blank {l : Line} (blank : allBlank l = true) : MovedLeft n l l
  | text {blanks l : Line} (blank : allBlank blanks = true) (length : blanks.length = n) (text : allBlank l = false) :
      MovedLeft n (blanks ++ l) l

theorem indentation_append {blanks : Line} (h : allBlank blanks = true) (l : Line) :
    indentation (blanks ++ l) = blanks.length + indentation l := by
  rw [indentation, List.takeWhile_append_of_pos (List.all_eq_true.mp h), List.length_append, indentation]

theorem allBlank_take (h : n ≤ indentation l) : allBlank (l.take n) = true := by
  refine List.all_eq_true.mpr fun c hc => ?_
  rw [← List.takeWhile_append_dropWhile (p := isBlank) (l := l), List.take_append_of_le_length h] at hc
  exact List.mem_takeWhile_imp (List.mem_of_mem_take hc)

theorem allBlank_drop (h : n ≤ indentation l) : allBlank (l.drop n) = allBlank l := by
  have hall : allBlank (l.take n ++ l.drop n) = (allBlank (l.take n) && allBlank (l.drop n)) := List.all_append
  rw [List.take_append_drop, allBlank_take h, Bool.true_and] at hall
  exact hall.symm

theorem length_take_of_le_indentation (h : n ≤ indentation l) : (l.take n).length = n :=
  List.length_take_of_le (Nat.le_trans h (List.takeWhile_sublist isBlank).length_le)

theorem indentation_drop (h : n ≤ indentation l) : indentation (l.drop n) = indentation l - n := by
  have hfront := indentation_append (allBlank_take h) (l.drop n)
  rw [List.take_append_drop, length_take_of_le_indentation h] at hfront
  omega

theorem map_moveLeft_zero (ls : List Line) : ls.map (moveLeft 0) = ls := by
  rw [List.map_congr_left fun l _ => show moveLeft 0 l = l from ite_self l, List.map_id']

theorem movedLeft_moveLeft (h : allBlank l = false → n ≤ indentation l) : MovedLeft n l (moveLeft n l) := by
  cases hblank : allBlank l with
  | true =>
    rw [moveLeft, if_pos hblank]
    exact .blank hblank
  | false =>
    have hn := h hblank
    have hmoved : MovedLeft n (l.take n ++ l.drop n) (l.drop n) :=
      .text (allBlank_take hn) (length_take_of_le_indentation hn) ((allBlank_drop hn).trans hblank)
    rw [moveLeft, hblank]
    rwa [List.take_append_drop] at hmoved

end Lines

/-! ### The margin -/

section Margin

variable {ls : List Line} {l : Line}

/-- All lines are blank, or the margin is the least indentation of those that are not. -/
theorem margin_cases (ls : List Line) :
    (margin ls = 0 ∧ ∀ l ∈ ls, allBlank l = true) ∨
      (∃ l ∈ ls, allBlank l = false ∧ indentation l = margin ls) ∧
        ∀ l ∈ ls, allBlank l = false → margin ls ≤ indentation l := by
  cases hmin : ((ls.filter fun l => !allBlank l).map indentation).min? with
  | none =>
    have hnone := List.map_eq_nil_iff.mp (List.min?_eq_none_iff.mp hmin)
    refine Or.inl ⟨by rw [margin, hmin]; rfl, fun l hl => ?_⟩
    simpa using List.filter_eq_nil_iff.mp hnone l hl
  | some n =>
    have hmargin : margin ls = n := by
      rw [margin, hmin]
      rfl
    obtain ⟨hmem, hleast⟩ := List.min?_eq_some_iff.mp hmin
    rw [hmargin]
    refine Or.inr ⟨?_, fun l hl hblank => ?_⟩
    · obtain ⟨l, hl, hindent⟩ := List.mem_map.mp hmem
      obtain ⟨hl, hblank⟩ := List.mem_filter.mp hl
      exact ⟨l, hl, by simpa using hblank, hindent⟩
    · exact hleast _ (List.mem_map_of_mem (List.mem_filter.mpr ⟨hl, by simp [hblank]⟩))

theorem margin_le (hl : l ∈ ls) (hblank : allBlank l = false) : margin ls ≤ indentation l := by
  rcases margin_cases ls with ⟨hzero, -⟩ | ⟨-, hleast⟩
  · rw [hzero]
    exact Nat.zero_le _
  · exact hleast l hl hblank

/-- Among lines that are moved as far as they can be, one is left without indentation. -/
theorem exists_indentation_eq_zero (hl : l ∈ ls) (hblank : allBlank l = false) :
    ∃ m ∈ ls.map (moveLeft (margin ls)), allBlank m = false ∧ indentation m = 0 := by
  rcases margin_cases ls with ⟨-, hall⟩ | ⟨⟨m, hm, hmblank, hleast⟩, -⟩
  · rw [hall l hl] at hblank
    cases hblank
  · have hle : margin ls ≤ indentation m := Nat.le_of_eq hleast.symm
    refine ⟨moveLeft (margin ls) m, List.mem_map_of_mem hm, ?_⟩
    rw [moveLeft, hmblank]
    exact ⟨(allBlank_drop hle).trans hmblank, by rw [if_neg (by simp), indentation_drop hle, hleast, Nat.sub_self]⟩

/-- Lines that are moved as far as they can be cannot be moved further. -/
theorem margin_moved (ls : List Line) : margin (ls.map (moveLeft (margin ls))) = 0 := by
  rcases margin_cases ls with ⟨hzero, -⟩ | ⟨⟨l, hl, hblank, -⟩, -⟩
  · rw [hzero, map_moveLeft_zero, hzero]
  · obtain ⟨m, hm, hmblank, hindent⟩ := exists_indentation_eq_zero hl hblank
    have hle := margin_le hm hmblank
    omega

end Margin

/-! ### Texts -/

section Texts

theorem dedent_eq (text : List Char) :
    dedent text = joinLines ((cut '\n' text).map (moveLeft (margin (cut '\n' text)))) := by
  rw [dedent, margin]
  cases ((cut '\n' text).filter fun l => !allBlank l).map indentation |>.min? with
  | none =>
    rw [Option.getD_none, map_moveLeft_zero, joinLines, intercalate_cut]
  | some n => rfl

theorem cut_dedent (text : List Char) :
    cut '\n' (dedent text) = (cut '\n' text).map (moveLeft (margin (cut '\n' text))) := by
  have hne : cut '\n' text ≠ [] := List.length_pos_iff.mp (by simp [length_cut])
  rw [dedent_eq, joinLines, cut_intercalate (List.map_eq_nil_iff.not.mpr hne)]
  intro moved hmoved
  obtain ⟨l, hl, rfl⟩ := List.mem_map.mp hmoved
  have hfeed := not_mem_of_mem_cut hl
  rw [moveLeft]
  split
  · exact hfeed
  · exact fun hmem => hfeed (List.mem_of_mem_drop hmem)

theorem dedent_dedent (text : List Char) : dedent (dedent text) = dedent text := by
  rw [dedent_eq (dedent text), cut_dedent, margin_moved, map_moveLeft_zero, ← dedent_eq]

end Texts

/-- A text is moved left once and for all. It keeps its lines: those that are blank stay as they are, all others lose one
    and the same number of blanks in front, and unless all are blank one that is not has no blanks in front any more. -/
theorem moved_left_once_for_all (text : List Char) :
    dedent (dedent text) = dedent text ∧
    (cut '\n' (dedent text)).length = (cut '\n' text).length ∧
    (∃ n, List.Forall₂ (MovedLeft n) (cut '\n' text) (cut '\n' (dedent text))) ∧
    ((∃ l ∈ cut '\n' text, allBlank l = false) →
      ∃ l ∈ cut '\n' (dedent text), allBlank l = false ∧ indentation l = 0) := by
  refine ⟨dedent_dedent text, ?_, ⟨margin (cut '\n' text), ?_⟩, ?_⟩
  · rw [cut_dedent, List.length_map]
  · rw [cut_dedent, List.forall₂_map_right_iff, List.forall₂_same]
    exact fun l hl => movedLeft_moveLeft (margin_le hl)
  · rintro ⟨l, hl, hblank⟩
    rw [cut_dedent]
    exact exists_indentation_eq_zero hl hblank

/-- A tab counts as one blank, and the blank line is shorter than the rest is moved. -/
example : dedent "    a\n \n\t\tb".toList = "  a\n \nb".toList := by decide

end AcornCatalog
