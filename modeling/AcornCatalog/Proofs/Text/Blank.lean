import AcornCatalog.Proofs.Text.Line
import Mathlib.Data.List.TakeWhile

/-! Trimming and searching a text that is put together: which part loses its blanks, and in which part a word occurs. -/

namespace AcornCatalog.Text

/-! ### Trimming -/

section Trim

variable {a b : List Char} {c : Char}

theorem trimStart_of_allBlank (h : allBlank a = true) : trimStart a = [] :=
  List.dropWhile_eq_nil_iff.mpr (List.all_eq_true.mp h)

theorem mem_trimStart (hc : isBlank c = false) (hmem : c ∈ a) : c ∈ trimStart a := by
  rw [← List.takeWhile_append_dropWhile (p := isBlank) (l := a)] at hmem
  rcases List.mem_append.mp hmem with hmem | hmem
  · rw [List.mem_takeWhile_imp hmem] at hc
    cases hc
  · exact hmem

theorem trimStart_append_of_mem (hc : isBlank c = false) (hmem : c ∈ a) (b : List Char) :
    trimStart (a ++ b) = trimStart a ++ b := by
  have hne : (a.dropWhile isBlank).isEmpty = false := by
    cases hrest : a.dropWhile isBlank with
    | nil => exact absurd (mem_trimStart hc hmem) (by simp [trimStart, hrest])
    | cons => rfl
  rw [trimStart, List.dropWhile_append, hne]
  rfl

theorem trimStart_append_of_allBlank (h : allBlank a = true) (b : List Char) : trimStart (a ++ b) = trimStart b := by
  rw [trimStart, List.dropWhile_append, List.dropWhile_eq_nil_iff.mpr (List.all_eq_true.mp h)]
  rfl

/-- Either there is something to keep, or all is blank. -/
theorem allBlank_or_exists (a : List Char) : allBlank a = true ∨ ∃ c ∈ a, isBlank c = false := by
  cases h : allBlank a with
  | true => exact Or.inl rfl
  | false =>
    obtain ⟨c, hmem, hc⟩ := List.all_eq_false.mp h
    exact Or.inr ⟨c, hmem, by simpa using hc⟩

theorem exists_trimEnd_append (cs : List Char) : ∃ blanks, allBlank blanks = true ∧ cs = trimEnd cs ++ blanks := by
  refine ⟨(cs.reverse.takeWhile isBlank).reverse, ?_, ?_⟩
  · rw [allBlank, List.all_reverse]
    exact List.all_takeWhile
  · rw [trimEnd, ← List.reverse_append, List.takeWhile_append_dropWhile, List.reverse_reverse]

theorem trimEnd_append_of_allBlank (h : allBlank b = true) (a : List Char) : trimEnd (a ++ b) = trimEnd a := by
  have hblank : ∀ c ∈ b.reverse, isBlank c = true := fun c hc => List.all_eq_true.mp h c (List.mem_reverse.mp hc)
  rw [trimEnd, List.reverse_append, List.dropWhile_append_of_pos hblank]
  rfl

theorem trimEnd_append_cons (hc : isBlank c = false) (a b : List Char) :
    trimEnd (a ++ c :: b) = a ++ c :: trimEnd b := by
  have hend : (c :: a.reverse).dropWhile isBlank = c :: a.reverse := by simp [hc]
  rw [trimEnd, List.reverse_append, List.reverse_cons, List.append_assoc, List.singleton_append, List.dropWhile_append,
    hend, trimEnd]
  cases b.reverse.dropWhile isBlank with
  | nil => simp
  | cons d ds => simp

theorem trimEnd_append_of_mem (hc : isBlank c = false) (hmem : c ∈ b) (a : List Char) :
    trimEnd (a ++ b) = a ++ trimEnd b := by
  obtain ⟨front, back, rfl⟩ := List.append_of_mem hmem
  rw [← List.append_assoc, trimEnd_append_cons hc, trimEnd_append_cons hc, List.append_assoc]

theorem trimEnd_isPrefix (cs : List Char) : trimEnd cs <+: cs := by
  obtain ⟨blanks, -, hcs⟩ := exists_trimEnd_append cs
  exact ⟨blanks, hcs.symm⟩

theorem trimStart_isSuffix (cs : List Char) : trimStart cs <:+ cs := List.dropWhile_suffix isBlank

theorem trim_isInfix (cs : List Char) : trim cs <:+: cs := by
  obtain ⟨blanks, -, hend⟩ := exists_trimEnd_append (trimStart cs)
  have hfront : trim cs <+: trimStart cs := ⟨blanks, hend.symm⟩
  exact hfront.isInfix.trans (List.dropWhile_suffix isBlank).isInfix

/-- A text is what is left of it when it is trimmed, between blanks. -/
theorem exists_blanks_trim (cs : List Char) :
    ∃ front back, allBlank front = true ∧ allBlank back = true ∧ cs = front ++ (trim cs ++ back) := by
  obtain ⟨back, hback, hend⟩ := exists_trimEnd_append (trimStart cs)
  have hstart : cs = cs.takeWhile isBlank ++ trimStart cs := List.takeWhile_append_dropWhile.symm
  exact ⟨cs.takeWhile isBlank, back, List.all_takeWhile, hback, hstart.trans (congrArg _ hend)⟩

theorem trim_blanks_append (h : allBlank a = true) (b : List Char) : trim (a ++ b) = trim b := by
  rw [trim, trimStart_append_of_allBlank h, trim]

theorem trim_space_cons (cs : List Char) : trim (' ' :: cs) = trim cs := trim_blanks_append (a := [' ']) rfl cs

theorem trim_trimStart (cs : List Char) : trim (trimStart cs) = trim cs := by
  have hblank : allBlank (cs.takeWhile isBlank) = true := List.all_takeWhile
  rw [← trim_blanks_append hblank (trimStart cs), trimStart, List.takeWhile_append_dropWhile]

theorem trim_append_of_allBlank (h : allBlank b = true) (a : List Char) : trim (a ++ b) = trim a := by
  rcases allBlank_or_exists a with ha | ⟨c, hmem, hc⟩
  · rw [trim, trim, trimStart_append_of_allBlank ha, trimStart_of_allBlank h, trimStart_of_allBlank ha]
  · rw [trim, trim, trimStart_append_of_mem hc hmem, trimEnd_append_of_allBlank h]

theorem trimEnd_prefix_trimEnd_append (a b : List Char) : trimEnd a <+: trimEnd (a ++ b) := by
  rcases allBlank_or_exists b with hb | ⟨c, hmem, hc⟩
  · exact trimEnd_append_of_allBlank hb a ▸ List.prefix_refl _
  · rw [trimEnd_append_of_mem hc hmem]
    exact (trimEnd_isPrefix a).trans (List.prefix_append a _)

theorem trim_prefix_trim (h : a <+: b) : trim a <+: trim b := by
  obtain ⟨more, rfl⟩ := h
  rcases allBlank_or_exists a with ha | ⟨c, hmem, hc⟩
  · rw [trim, trimStart_of_allBlank ha]
    exact List.nil_prefix
  · rw [trim, trim, trimStart_append_of_mem hc hmem]
    exact trimEnd_prefix_trimEnd_append ..

/-- More text behind is told from the trimmed text, unless it is blank. -/
theorem trim_append_eq_iff (hc : isBlank c = false) (hmem : c ∈ a) (b : List Char) :
    trim (a ++ b) = trim a ↔ allBlank b = true := by
  refine ⟨fun h => ?_, fun hb => trim_append_of_allBlank hb a⟩
  rcases allBlank_or_exists b with hb | ⟨d, hd, hblank⟩
  · exact hb
  · rw [trim, trimStart_append_of_mem hc hmem, trimEnd_append_of_mem hblank hd] at h
    have hlong := congrArg List.length h
    have hshort : (trim a).length ≤ (trimStart a).length := (trimEnd_isPrefix _).length_le
    have hrest : trimEnd b ≠ [] := by
      obtain ⟨front, back, rfl⟩ := List.append_of_mem hd
      rw [trimEnd_append_cons hblank]
      simp
    have := List.length_pos_iff.mpr hrest
    rw [List.length_append] at hlong
    omega

theorem count_trim (hc : isBlank c = false) (cs : List Char) : (trim cs).count c = cs.count c := by
  have hnone {blanks : List Char} (h : allBlank blanks = true) : blanks.count c = 0 :=
    List.count_eq_zero.mpr fun hmem => by simp [List.all_eq_true.mp h c hmem] at hc
  obtain ⟨front, back, hfront, hback, hcs⟩ := exists_blanks_trim cs
  calc
    (trim cs).count c = (front ++ (trim cs ++ back)).count c := by
      rw [List.count_append, List.count_append, hnone hfront, hnone hback, Nat.zero_add, Nat.add_zero]
    _ = cs.count c := by rw [← hcs]

theorem mem_trim_iff (hc : isBlank c = false) : c ∈ trim a ↔ c ∈ a := by
  rw [← List.count_pos_iff, count_trim hc, List.count_pos_iff]

end Trim

/-! ### Words in a text -/

section Occur

variable {w a b : List Char}

/-- A word that the second part cannot go on with starts the text only if it starts the first part. -/
theorem isPrefixOf_append_of_head (h : ∀ c, b.head? = some c → c ∉ w) :
    w.isPrefixOf (a ++ b) = w.isPrefixOf a := by
  induction w generalizing a with
  | nil => simp
  | cons x w ih =>
    cases a with
    | nil =>
      cases b with
      | nil => rfl
      | cons y b =>
        have hne : x ≠ y := by
          rintro rfl
          exact h x rfl (List.mem_cons_self ..)
        simp [List.isPrefixOf, hne]
    | cons z a => simp [List.isPrefixOf, ih fun c hc hmem => h c hc (List.mem_cons_of_mem _ hmem)]

/-- The same if the first part has a character that the word has not. -/
theorem isPrefixOf_append_of_mem {x : Char} (hmem : x ∈ a) (hx : x ∉ w) (b : List Char) :
    w.isPrefixOf (a ++ b) = w.isPrefixOf a := by
  induction w generalizing a with
  | nil => simp
  | cons y w ih =>
    cases a with
    | nil => cases hmem
    | cons z a =>
      simp only [List.mem_cons, not_or] at hx
      rcases List.mem_cons.mp hmem with rfl | hmem
      · have hne : (y == x) = false := by simpa using Ne.symm hx.1
        simp only [List.cons_append, List.isPrefixOf, hne, Bool.false_and]
      · simp [List.isPrefixOf, ih hmem hx.2]

theorem occursIn_iff_isInfix {cs : List Char} : occursIn w cs = true ↔ w <:+: cs := by
  induction cs with
  | nil => rw [occursIn, List.isEmpty_iff, List.infix_nil]
  | cons c cs ih => rw [occursIn, Bool.or_eq_true, ih, List.isPrefixOf_iff_prefix, List.infix_cons_iff]

theorem occursIn_append (hw : w ≠ []) (h : ∀ c, b.head? = some c → c ∉ w) :
    occursIn w (a ++ b) = (occursIn w a || occursIn w b) := by
  induction a with
  | nil =>
    have : w.isEmpty = false := by simpa using hw
    simp [occursIn, this]
  | cons c a ih =>
    have hfront := isPrefixOf_append_of_head (a := c :: a) h
    rw [List.cons_append] at hfront
    rw [List.cons_append, occursIn, hfront, ih, occursIn, Bool.or_assoc]

/-- A word does not start with a character that it has not. -/
theorem occursIn_append_of_not_mem {x : Char} (h : x ∉ a) (b : List Char) :
    occursIn (x :: w) (a ++ b) = occursIn (x :: w) b := by
  induction a with
  | nil => rfl
  | cons c a ih =>
    simp only [List.mem_cons, not_or] at h
    rw [List.cons_append, occursIn, ih h.2]
    simp [h.1]

theorem occursIn_cons_of_not_mem {c : Char} (hw : w ≠ []) (hc : c ∉ w) (cs : List Char) :
    occursIn w (c :: cs) = occursIn w cs := by
  have hhead : w.isPrefixOf (c :: cs) = false := by
    cases w with
    | nil => exact absurd rfl hw
    | cons x w =>
      simp only [List.mem_cons, not_or] at hc
      simp [List.isPrefixOf, Ne.symm hc.1]
  rw [occursIn, hhead, Bool.false_or]

/-- Whether a word has neither a blank nor a slash in it, so that it ends in front of a comment. -/
def isSolid (w : List Char) : Bool := w.all fun c => !isBlank c && c != '/'

theorem isBlank_eq_false_of_isSolid (h : isSolid w = true) {c : Char} (hc : c ∈ w) : isBlank c = false := by
  have := List.all_eq_true.mp h c hc
  simp only [Bool.and_eq_true, Bool.not_eq_true'] at this
  exact this.1

theorem ne_slash_of_isSolid (h : isSolid w = true) {c : Char} (hc : c ∈ w) : c ≠ '/' := by
  have := List.all_eq_true.mp h c hc
  simp only [Bool.and_eq_true, bne_iff_ne] at this
  exact this.2

theorem occursIn_blanks_append {blanks : List Char} (hw : w ≠ []) (hsolid : isSolid w = true)
    (hblanks : allBlank blanks = true) (cs : List Char) : occursIn w (blanks ++ cs) = occursIn w cs := by
  induction blanks with
  | nil => rfl
  | cons c blanks ih =>
    simp only [allBlank, List.all_cons, Bool.and_eq_true] at hblanks
    have hc : c ∉ w := fun hmem => by simp [isBlank_eq_false_of_isSolid hsolid hmem] at hblanks
    rw [List.cons_append, occursIn_cons_of_not_mem hw hc, ih hblanks.2]

/-- A word without a line feed occurs in lines put together if it occurs in one of them. -/
theorem occursIn_joinLines (hw : w ≠ []) (hfeed : '\n' ∉ w) (ls : List Line) :
    occursIn w (joinLines ls) = ls.any (occursIn w) := by
  induction ls with
  | nil => simpa [joinLines, occursIn] using hw
  | cons l ls ih =>
    cases ls with
    | nil => simp [joinLines]
    | cons m ls =>
      rw [joinLines_cons (List.cons_ne_nil m ls), occursIn_append hw (by rintro c ⟨⟩; exact hfeed),
        occursIn_cons_of_not_mem hw hfeed, ih]
      rfl

end Occur

end AcornCatalog.Text
