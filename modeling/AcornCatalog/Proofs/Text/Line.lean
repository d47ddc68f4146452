import AcornCatalog.Text.Line

/-! Writing lines and reading them back: a text that ends every line with a line feed is cut into just these lines, and
whatever stands on both sides of a line feed is cut on its own. And cutting at a separator: no piece holds it, and a
text without it is its own only piece. -/

namespace AcornCatalog.Text

attribute [grind =] lines unifyBreaks

/-- The text of a file: its lines, each followed by a line feed. -/
def fileText (ls : List Line) : List Char := ls.flatMap (· ++ ['\n'])

/-- A line holds no character that would end it. -/
def Unbroken (l : Line) : Prop := ∀ c ∈ l, isLineBreak c = false

instance (l : Line) : Decidable (Unbroken l) := List.decidableBAll _ l

theorem Unbroken.ne_return {l : Line} (h : Unbroken l) : '\r' ∉ l := fun hmem => by
  have := h '\r' hmem
  simp [isLineBreak] at this

theorem unifyBreaks_of_not_mem {cs : List Char} (h : '\r' ∉ cs) : unifyBreaks cs = cs := by
  induction cs with
  | nil => rfl
  | cons c cs ih =>
    simp only [List.mem_cons, not_or] at h
    rw [unifyBreaks, if_neg (Ne.symm h.1), ih h.2]
    rintro cs' rfl
    exact absurd rfl h.1

theorem lines_append_feed {l : Line} (h : Unbroken l) (cs : List Char) : lines (l ++ '\n' :: cs) = l :: lines cs := by
  induction l with
  | nil => rfl
  | cons c l ih =>
    have hc : isLineBreak c = false := h c (List.mem_cons_self ..)
    have hl : Unbroken l := fun d hd => h d (List.mem_cons_of_mem _ hd)
    rw [List.cons_append, lines, hc, ih hl]
    · rfl
    · rintro cs' rfl
      exact absurd (List.mem_cons_self ..) h.ne_return

theorem lines_fileText {ls : List Line} (h : ∀ l ∈ ls, Unbroken l) : lines (unifyBreaks (fileText ls)) = ls := by
  have hreturn : '\r' ∉ fileText ls := fun hmem => by
    obtain ⟨l, hl, hc⟩ := List.mem_flatMap.mp hmem
    rcases List.mem_append.mp hc with hc | hc
    · exact (h l hl).ne_return hc
    · simp at hc
  rw [unifyBreaks_of_not_mem hreturn]
  clear hreturn
  induction ls with
  | nil => rfl
  | cons l ls ih =>
    have hrest := ih fun m hm => h m (List.mem_cons_of_mem _ hm)
    rw [fileText, List.flatMap_cons, List.append_assoc, List.singleton_append,
      lines_append_feed (h l (List.mem_cons_self ..))]
    exact congrArg _ hrest

/-! ### Joining lines -/

section Join

variable {ls : List Line}

theorem fileText_cons (l : Line) (ls : List Line) : fileText (l :: ls) = l ++ ['\n'] ++ fileText ls := rfl

theorem fileText_append (ls ms : List Line) : fileText (ls ++ ms) = fileText ls ++ fileText ms := List.flatMap_append

theorem joinLines_singleton (l : Line) : joinLines [l] = l := List.intercalate_singleton ..

theorem joinLines_cons (h : ls ≠ []) (l : Line) : joinLines (l :: ls) = l ++ '\n' :: joinLines ls := by
  cases ls with
  | nil => exact absurd rfl h
  | cons m ls => simp [joinLines, List.intercalate_cons_cons]

theorem joinLines_cons_append (a b : Line) (ls : List Line) : joinLines ((a ++ b) :: ls) = a ++ joinLines (b :: ls) := by
  cases ls with
  | nil => rw [joinLines_singleton, joinLines_singleton]
  | cons m ls => rw [joinLines_cons (List.cons_ne_nil _ _), joinLines_cons (List.cons_ne_nil _ _), List.append_assoc]

theorem joinLines_append (h : ls ≠ []) (above : List Line) :
    joinLines (above ++ ls) = fileText above ++ joinLines ls := by
  induction above with
  | nil => rfl
  | cons l above ih =>
    rw [List.cons_append, joinLines_cons (List.append_ne_nil_of_right_ne_nil _ h), ih, fileText_cons]
    simp

end Join

/-! ### Lines around a line feed -/

theorem lines_cons {c : Char} (h : isLineBreak c = false) (cs : List Char) :
    lines (c :: cs) = consFirst c (lines cs) := by
  rw [lines, if_neg (by simp [h])]
  rintro rest rfl
  exact absurd h (by decide)

theorem consFirst_append {c : Char} {ls : List Line} (h : ls ≠ []) (more : List Line) :
    consFirst c (ls ++ more) = consFirst c ls ++ more := by
  cases ls with
  | nil => exact absurd rfl h
  | cons l ls => rfl

theorem consFirst_ne_nil (c : Char) (ls : List Line) : consFirst c ls ≠ [] := by
  cases ls <;> exact List.cons_ne_nil _ _

theorem lines_ne_nil {cs : List Char} (h : cs ≠ []) : lines cs ≠ [] := by
  fun_cases lines cs with
  | case1 => exact absurd rfl h
  | case2 | case3 => exact List.cons_ne_nil _ _
  | case4 c cs => exact consFirst_ne_nil c _

/-- The first character of a text does not get to see a line feed further back, unless it is a carriage return right
    before it. -/
theorem lines_cons_append_feed {c : Char} {cs : List Char} (hpair : ∀ rest, c = '\r' → cs = '\n' :: rest → False)
    (hend : ¬(c = '\r' ∧ cs = [])) (more : List Char) :
    lines (c :: cs ++ '\n' :: more) =
      if isLineBreak c then [] :: lines (cs ++ '\n' :: more) else consFirst c (lines (cs ++ '\n' :: more)) := by
  refine lines.eq_3 c _ fun rest hc hcs => ?_
  cases cs with
  | nil => exact hend ⟨hc, rfl⟩
  | cons d cs => exact hpair cs hc (by rw [(List.cons.inj hcs).1])

/-- A line feed ends a line for good, also where it belongs to the carriage return before it. -/
theorem lines_feed_append (cs more : List Char) : lines (cs ++ '\n' :: more) = lines (cs ++ ['\n']) ++ lines more := by
  fun_induction lines cs with
  | case1 => rfl
  | case2 cs ih => exact congrArg _ ih
  | case3 c cs hpair hbreak ih =>
    by_cases hend : c = '\r' ∧ cs = []
    · obtain ⟨rfl, rfl⟩ := hend
      rfl
    · rw [lines_cons_append_feed hpair hend, lines_cons_append_feed hpair hend, if_pos hbreak, if_pos hbreak, ih]
      rfl
  | case4 c cs hpair hbreak ih =>
    have hend : ¬(c = '\r' ∧ cs = []) := fun h => hbreak (h.1 ▸ rfl)
    have hne : lines (cs ++ ['\n']) ≠ [] := lines_ne_nil (List.append_ne_nil_of_right_ne_nil _ (List.cons_ne_nil _ _))
    rw [lines_cons_append_feed hpair hend, lines_cons_append_feed hpair hend, if_neg hbreak, if_neg hbreak, ih,
      consFirst_append hne]

/-- A line feed at the end adds an empty line, or nothing. -/
theorem lines_feed (cs : List Char) : lines (cs ++ ['\n']) = lines cs ∨ lines (cs ++ ['\n']) = lines cs ++ [[]] := by
  fun_induction lines cs with
  | case1 => exact Or.inr rfl
  | case2 cs ih => exact ih.imp (congrArg _) (congrArg _)
  | case3 c cs hpair hbreak ih =>
    by_cases hend : c = '\r' ∧ cs = []
    · obtain ⟨rfl, rfl⟩ := hend
      exact Or.inl rfl
    · rw [lines_cons_append_feed hpair hend, if_pos hbreak]
      exact ih.imp (congrArg _) (congrArg _)
  | case4 c cs hpair hbreak ih =>
    have hend : ¬(c = '\r' ∧ cs = []) := fun h => hbreak (h.1 ▸ rfl)
    rw [lines_cons_append_feed hpair hend, if_neg hbreak]
    rcases ih with ih | ih
    · exact Or.inl (congrArg _ ih)
    · rw [ih]
      cases hlines : lines cs with
      | nil => exact Or.inl rfl
      | cons l ls => exact Or.inr rfl

/-! ### Counting lines -/

theorem length_lines_le (cs : List Char) : (lines cs).length ≤ cs.length := by
  fun_induction lines cs with
  | case1 => exact Nat.le_refl _
  | case2 cs ih =>
    simp only [List.length_cons]
    omega
  | case3 c cs _ hbreak ih =>
    simp only [List.length_cons]
    omega
  | case4 c cs _ hbreak ih =>
    cases hlines : lines cs with
    | nil => simp [consFirst]
    | cons first rest =>
      rw [hlines] at ih
      simp only [consFirst, List.length_cons] at ih ⊢
      omega

theorem length_unifyBreaks_le (cs : List Char) : (unifyBreaks cs).length ≤ cs.length := by
  fun_induction unifyBreaks cs with
  | case1 => exact Nat.le_refl _
  | case2 cs ih =>
    simp only [List.length_cons]
    omega
  | case3 c cs _ ih =>
    simp only [List.length_cons]
    omega

/-! ### Cutting at a separator -/

section Cut

variable {sep : Char} {cs piece : List Char}

theorem mem_consFirst {c : Char} {pieces : List Line} (h : piece ∈ consFirst c pieces) :
    piece = [c] ∨ (∃ first ∈ pieces, piece = c :: first) ∨ piece ∈ pieces := by
  cases pieces with
  | nil => exact Or.inl (List.mem_singleton.mp h)
  | cons first rest =>
    rcases List.mem_cons.mp h with rfl | h
    · exact Or.inr (Or.inl ⟨first, List.mem_cons_self .., rfl⟩)
    · exact Or.inr (Or.inr (List.mem_cons_of_mem _ h))

theorem not_mem_of_mem_cut (h : piece ∈ cut sep cs) : sep ∉ piece := by
  induction cs generalizing piece with
  | nil =>
    obtain rfl := List.mem_singleton.mp h
    exact List.not_mem_nil
  | cons c cs ih =>
    rw [cut] at h
    split at h
    · rcases List.mem_cons.mp h with rfl | h
      · exact List.not_mem_nil
      · exact ih h
    · next hc =>
      rcases mem_consFirst h with rfl | ⟨first, hfirst, rfl⟩ | h
      · simpa using Ne.symm hc
      · simpa [Ne.symm hc] using ih hfirst
      · exact ih h

theorem length_cut (sep : Char) (cs : List Char) : (cut sep cs).length = cs.count sep + 1 := by
  induction cs with
  | nil => rfl
  | cons c cs ih =>
    rw [cut]
    split
    · next hc =>
      rw [List.length_cons, ih, hc, List.count_cons_self]
    · next hc =>
      rw [List.count_cons_of_ne hc, ← ih]
      cases hpieces : cut sep cs with
      | nil => simp [hpieces] at ih
      | cons piece pieces => rfl

theorem cut_append_sep (h : sep ∉ piece) (cs : List Char) : cut sep (piece ++ sep :: cs) = piece :: cut sep cs := by
  induction piece with
  | nil => simp [cut]
  | cons c piece ih =>
    simp only [List.mem_cons, not_or] at h
    rw [List.cons_append, cut, if_neg (Ne.symm h.1), ih h.2]
    rfl

theorem cut_of_not_mem (h : sep ∉ cs) : cut sep cs = [cs] := by
  induction cs with
  | nil => rfl
  | cons c cs ih =>
    simp only [List.mem_cons, not_or] at h
    rw [cut, if_neg (Ne.symm h.1), ih h.2]
    rfl

/-- Pieces that are joined by a separator come apart again. -/
theorem cut_intercalate {pieces : List Line} (hne : pieces ≠ []) (h : ∀ piece ∈ pieces, sep ∉ piece) :
    cut sep ([sep].intercalate pieces) = pieces := by
  induction pieces with
  | nil => exact absurd rfl hne
  | cons piece pieces ih =>
    have hpiece := h piece (List.mem_cons_self ..)
    cases pieces with
    | nil => rw [List.intercalate_singleton, cut_of_not_mem hpiece]
    | cons next pieces =>
      rw [List.intercalate_cons_cons, List.append_assoc, List.singleton_append, cut_append_sep hpiece,
        ih (List.cons_ne_nil _ _) fun p hp => h p (List.mem_cons_of_mem _ hp)]

theorem intercalate_cut (sep : Char) (cs : List Char) : [sep].intercalate (cut sep cs) = cs := by
  induction cs with
  | nil => rfl
  | cons c cs ih =>
    obtain ⟨piece, pieces, hcut⟩ : ∃ piece pieces, cut sep cs = piece :: pieces :=
      List.exists_cons_of_length_pos (by simp [length_cut])
    rw [hcut] at ih
    rw [cut, hcut]
    split
    · next hc => rw [List.intercalate_cons_cons, ih, hc, List.nil_append, List.singleton_append]
    · cases pieces with
      | nil => simpa [consFirst, List.intercalate_singleton] using ih
      | cons next pieces =>
        rw [List.intercalate_cons_cons] at ih
        rw [consFirst, List.intercalate_cons_cons, List.cons_append, List.cons_append, ih]

theorem cut_eq_cons (sep : Char) (cs : List Char) : cut sep cs = cs.takeWhile (· != sep) :: (cut sep cs).tail := by
  induction cs with
  | nil => rfl
  | cons c cs ih =>
    by_cases hc : c = sep
    · simp [cut, hc]
    · rw [cut, if_neg hc, ih]
      simp [consFirst, hc]

theorem cut_append (a b : List Char) : cut sep (a ++ sep :: b) = cut sep a ++ cut sep b := by
  induction a with
  | nil => simp [cut]
  | cons c a ih =>
    rw [List.cons_append, cut, cut, ih]
    split
    · rfl
    · rw [cut_eq_cons sep a]
      rfl

theorem cut_append_of_not_mem {a : List Char} (h : sep ∉ a) (b : List Char) :
    cut sep (a ++ b) = (a ++ b.takeWhile (· != sep)) :: (cut sep b).tail := by
  induction a with
  | nil => exact cut_eq_cons sep b
  | cons c a ih =>
    simp only [List.mem_cons, not_or] at h
    rw [List.cons_append, cut, if_neg (Ne.symm h.1), ih h.2]
    rfl

theorem mem_of_mem_cut {c : Char} (h : piece ∈ cut sep cs) (hc : c ∈ piece) : c ∈ cs := by
  induction cs generalizing piece with
  | nil =>
    obtain rfl := List.mem_singleton.mp h
    cases hc
  | cons d cs ih =>
    rw [cut] at h
    split at h
    · rcases List.mem_cons.mp h with rfl | h
      · cases hc
      · exact List.mem_cons_of_mem _ (ih h hc)
    · rcases mem_consFirst h with rfl | ⟨first, hfirst, rfl⟩ | h
      · exact List.mem_singleton.mp hc ▸ List.mem_cons_self ..
      · rcases List.mem_cons.mp hc with rfl | hc
        · exact List.mem_cons_self ..
        · exact List.mem_cons_of_mem _ (ih hfirst hc)
      · exact List.mem_cons_of_mem _ (ih h hc)

theorem exists_mem_cut {c : Char} (h : c ∈ cs) (hc : c ≠ sep) : ∃ piece ∈ cut sep cs, c ∈ piece := by
  obtain ⟨a, b, rfl⟩ := List.append_of_mem h
  induction a with
  | nil =>
    rw [List.nil_append, cut, if_neg hc, cut_eq_cons]
    exact ⟨_, List.mem_cons_self .., List.mem_cons_self ..⟩
  | cons d a ih =>
    obtain ⟨piece, hpiece, hmem⟩ := ih (by simp)
    rw [List.cons_append, cut]
    split
    · exact ⟨piece, List.mem_cons_of_mem _ hpiece, hmem⟩
    · rw [cut_eq_cons] at hpiece ⊢
      rcases List.mem_cons.mp hpiece with rfl | hpiece
      · exact ⟨_, List.mem_cons_self .., List.mem_cons_of_mem _ hmem⟩
      · exact ⟨piece, List.mem_cons_of_mem _ hpiece, hmem⟩

end Cut

theorem unbroken_of_mem_lines {cs : List Char} {l : Line} (h : l ∈ lines cs) : Unbroken l := by
  have hnil : Unbroken [] := fun _ hc => absurd hc List.not_mem_nil
  fun_induction lines cs generalizing l with
  | case1 => cases h
  | case2 cs ih =>
    rcases List.mem_cons.mp h with rfl | h
    · exact hnil
    · exact ih h
  | case3 c cs _ hbreak ih =>
    rcases List.mem_cons.mp h with rfl | h
    · exact hnil
    · exact ih h
  | case4 c cs _ hbreak ih =>
    have hc : isLineBreak c = false := by simpa using hbreak
    rcases mem_consFirst h with rfl | ⟨first, hfirst, rfl⟩ | h
    · exact List.forall_mem_singleton.mpr hc
    · exact List.forall_mem_cons.mpr ⟨hc, ih hfirst⟩
    · exact ih h

/-! ### Dotted names -/

theorem lastPart_of_not_mem {name : String} (h : '.' ∉ name.toList) : lastPart name = name := by
  rw [lastPart, cut_of_not_mem h]
  exact String.ofList_toList

theorem lastPart_lastPart (name : String) : lastPart (lastPart name) = lastPart name := by
  refine lastPart_of_not_mem ?_
  rw [lastPart, String.toList_ofList, List.getLastD_eq_getLast?]
  cases hlast : (cut '.' name.toList).getLast? with
  | none => exact List.not_mem_nil
  | some piece => exact not_mem_of_mem_cut (List.mem_of_getLast? hlast)

end AcornCatalog.Text
