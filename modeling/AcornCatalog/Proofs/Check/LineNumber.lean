import AcornCatalog.Proofs.Check.Nesting
import AcornCatalog.Proofs.Check.Report

/-! Line numbers in reports. A text is masked first and cut into lines afterwards, and a mask shows every line feed but
hides whatever else breaks a line within a comment. So mask and text have lines of the same lengths exactly if no break
is hidden, and equally many lines exactly if none is hidden but the carriage return of a line feed, or the very last
character. As long as no line is lost, what is reported of a line of the mask is about the line of the text below it. -/

namespace AcornCatalog.Check

open Text

/-! ### Cutting a mask and its text -/

/-- A mask with its lines and a text with its lines, as the two are cut side by side. -/
inductive CutAlong : List Char → List Line → List Char → List Line → Prop
  | nil : CutAlong [] [] [] []
  | pair {shown cs : List Char} {ss ls : List Line} (behind : CutAlong shown ss cs ls) :
      CutAlong ('\r' :: '\n' :: shown) ([] :: ss) ('\r' :: '\n' :: cs) ([] :: ls)
  | hiddenReturn {shown cs : List Char} {ss ls : List Line} (behind : CutAlong shown ss cs ls) :
      CutAlong (' ' :: '\n' :: shown) ([' '] :: ss) ('\r' :: '\n' :: cs) ([] :: ls)
  | breaks {c : Char} {shown cs : List Char} {ss ls : List Line} (isBreak : isLineBreak c = true)
      (behind : CutAlong shown ss cs ls) : CutAlong (c :: shown) ([] :: ss) (c :: cs) ([] :: ls)
  | hidden {c : Char} {shown cs : List Char} {ss ls : List Line} (isBreak : isLineBreak c = true)
      (alone : ¬(c = '\r' ∧ cs.head? = some '\n')) (behind : CutAlong shown ss cs ls) :
      CutAlong (' ' :: shown) (consFirst ' ' ss) (c :: cs) ([] :: ls)
  | within {a c : Char} {shown cs : List Char} {ss ls : List Line} (covers : Covers a c)
      (noBreak : isLineBreak c = false) (behind : CutAlong shown ss cs ls) :
      CutAlong (a :: shown) (consFirst a ss) (c :: cs) (consFirst c ls)

theorem lines_break {c : Char} {cs : List Char} (h : isLineBreak c = true) (hpair : ¬(c = '\r' ∧ cs.head? = some '\n')) :
    lines (c :: cs) = [] :: lines cs := by
  rw [lines.eq_3, if_pos h]
  rintro rest rfl rfl
  exact hpair ⟨rfl, rfl⟩

theorem cutAlong_lines {shown cs : List Char} (h : List.Forall₂ Covers shown cs) :
    CutAlong shown (lines shown) cs (lines cs) := by
  fun_induction lines cs generalizing shown with
  | case1 =>
    cases h
    exact .nil
  | case2 cs ih =>
    obtain ⟨first, shown, hfirst, hshown, rfl⟩ := List.forall₂_cons_right_iff.mp h
    obtain ⟨second, rest, hsecond, hrest, rfl⟩ := List.forall₂_cons_right_iff.mp hshown
    obtain rfl : second = '\n' := hsecond.resolve_right fun hspace => hspace.2 rfl
    rcases hfirst with rfl | ⟨rfl, -⟩
    · exact .pair (ih hrest)
    · exact .hiddenReturn (ih hrest)
  | case3 c cs hpair hbreak ih =>
    obtain ⟨first, rest, hfirst, hrest, rfl⟩ := List.forall₂_cons_right_iff.mp h
    have halone : ¬(c = '\r' ∧ cs.head? = some '\n') := by
      rintro ⟨hc, hhead⟩
      obtain ⟨tail, rfl⟩ := List.head?_eq_some_iff.mp hhead
      exact hpair tail hc rfl
    rcases hfirst with rfl | ⟨rfl, -⟩
    · -- a line feed is shown behind the break only if the text has one there
      have hshown : ¬(first = '\r' ∧ rest.head? = some '\n') := by
        rintro ⟨hc, hhead⟩
        obtain ⟨tail, rfl⟩ := List.head?_eq_some_iff.mp hhead
        obtain ⟨second, cs, hsecond, -, rfl⟩ := List.forall₂_cons_left_iff.mp hrest
        rcases hsecond with rfl | ⟨hspace, -⟩
        · exact halone ⟨hc, rfl⟩
        · cases hspace
      rw [lines_break hbreak hshown]
      exact .breaks hbreak (ih hrest)
    · rw [lines_cons rfl]
      exact .hidden hbreak halone (ih hrest)
  | case4 c cs hpair hbreak ih =>
    obtain ⟨first, rest, hfirst, hrest, rfl⟩ := List.forall₂_cons_right_iff.mp h
    have hc : isLineBreak c = false := Bool.eq_false_iff.mpr hbreak
    have hfree : isLineBreak first = false := by
      rcases hfirst with rfl | ⟨rfl, -⟩
      · exact hc
      · rfl
    rw [lines_cons hfree]
    exact .within hfirst hc (ih hrest)

/-! ### Breaks that are shown -/

/-- Every break of the text is shown by the mask, unless it is excused by what comes behind it. -/
def BreaksShown (excused : Char → List Char → Prop) (shown cs : List Char) : Prop :=
  ∀ i c, cs[i]? = some c → isLineBreak c = true → shown[i]? = some c ∨ excused c (cs.drop (i + 1))

/-- No break of the text is hidden. -/
def ShowsBreaks (shown cs : List Char) : Prop := BreaksShown (fun _ _ => False) shown cs

/-- No break of the text is hidden, unless it is the carriage return of a line feed or ends the text. -/
def KeepsLines (shown cs : List Char) : Prop :=
  BreaksShown (fun c rest => c = '\r' ∧ rest.head? = some '\n' ∨ rest = []) shown cs

theorem breaksShown_nil (excused : Char → List Char → Prop) : BreaksShown excused [] [] := by
  intro i c hi
  simp at hi

theorem breaksShown_cons {excused : Char → List Char → Prop} {a c : Char} {shown cs : List Char} :
    BreaksShown excused (a :: shown) (c :: cs) ↔
      (isLineBreak c = true → a = c ∨ excused c cs) ∧ BreaksShown excused shown cs := by
  constructor
  · intro h
    refine ⟨fun hc => ?_, fun i d hi hd => ?_⟩
    · simpa using h 0 c rfl hc
    · simpa using h (i + 1) d hi hd
  · rintro ⟨hfirst, hrest⟩ i d hi hd
    cases i with
    | zero =>
      cases hi
      simpa using hfirst hd
    | succ i => simpa using hrest i d hi hd

section Cut

variable {shown cs : List Char} {ss ls : List Line}

theorem CutAlong.nil_iff (h : CutAlong shown ss cs ls) : (ss = [] ↔ ls = []) ∧ (cs = [] ↔ ls = []) := by
  cases h with
  | nil => simp
  | pair | hiddenReturn | breaks => simp
  | hidden => simp [consFirst_ne_nil]
  | within => simp [consFirst_ne_nil]

theorem map_length_consFirst (a c : Char) (h : ss = [] ↔ ls = []) :
    (consFirst a ss).map List.length = (consFirst c ls).map List.length ↔
      ss.map List.length = ls.map List.length := by
  cases ss with
  | nil =>
    obtain rfl := h.mp rfl
    exact iff_of_true rfl rfl
  | cons s ss =>
    cases ls with
    | nil => exact absurd (h.mpr rfl) (List.cons_ne_nil _ _)
    | cons l ls => simp [consFirst]

/-- Mask and text have lines of the same lengths exactly if no break is hidden. -/
theorem CutAlong.lengths_eq_iff (h : CutAlong shown ss cs ls) :
    ss.map List.length = ls.map List.length ↔ ShowsBreaks shown cs := by
  rw [ShowsBreaks]
  induction h with
  | nil => exact iff_of_true rfl (breaksShown_nil _)
  | pair _ ih => simpa [breaksShown_cons] using ih
  | hiddenReturn =>
    refine iff_of_false (by simp) fun hshown => ?_
    simpa using (breaksShown_cons.mp hshown).1 rfl
  | breaks _ _ ih => simpa [breaksShown_cons] using ih
  | @hidden c shown cs ss ls hbreak _ _ _ =>
    refine iff_of_false (by cases ss <;> simp [consFirst]) fun hshown => ?_
    rcases (breaksShown_cons.mp hshown).1 hbreak with rfl | hfalse
    · cases hbreak
    · exact hfalse
  | @within a c _ _ _ _ _ hfree hbehind ih =>
    rw [map_length_consFirst a c hbehind.nil_iff.1, breaksShown_cons, ih]
    simp [hfree]

/-- A mask has no more lines than its text, and as many exactly if no line is lost. -/
theorem CutAlong.length_eq_iff (h : CutAlong shown ss cs ls) :
    ss.length ≤ ls.length ∧ (ss.length = ls.length ↔ KeepsLines shown cs) := by
  rw [KeepsLines]
  induction h with
  | nil => exact ⟨Nat.le_refl _, iff_of_true rfl (breaksShown_nil _)⟩
  | pair _ ih | hiddenReturn _ ih | breaks _ _ ih => simpa [breaksShown_cons] using ih
  | @hidden c shown cs ss ls hbreak halone hbehind ih =>
    have hspace : ¬ ' ' = c := by
      rintro rfl
      cases hbreak
    have hempty : cs = [] ↔ ls.length = 0 := by rw [List.length_eq_zero_iff, hbehind.nil_iff.2]
    rw [length_consFirst, List.length_cons, breaksShown_cons]
    refine ⟨by omega, ?_⟩
    simp only [hbreak, hspace, halone, false_or, true_imp_iff, hempty]
    constructor
    · intro heq
      exact ⟨by omega, ih.2.mp (by omega)⟩
    · rintro ⟨hls, -⟩
      omega
  | @within a c _ _ ss ls _ hfree hbehind ih =>
    have hnil : ss.length = 0 ↔ ls.length = 0 := by
      rw [List.length_eq_zero_iff, List.length_eq_zero_iff, hbehind.nil_iff.1]
    rw [length_consFirst, length_consFirst, breaksShown_cons, ← ih.2]
    refine ⟨by omega, ?_⟩
    simp only [hfree, Bool.false_eq_true, false_imp_iff, true_and]
    omega

/-- What a mask shows over a line: the line with its comments masked, and maybe a space over a break at its end. -/
def LiesOver (shown line : Line) : Prop :=
  ∃ pad, (pad = [] ∨ pad = [' ']) ∧ List.Forall₂ Covers shown (line ++ pad)

/-- If no line is lost, the lines of the mask lie over those of the text. -/
theorem CutAlong.liesOver (h : CutAlong shown ss cs ls) (hkeeps : KeepsLines shown cs) :
    List.Forall₂ LiesOver ss ls := by
  have hempty : LiesOver [] [] := ⟨[], Or.inl rfl, .nil⟩
  have hpad : LiesOver [' '] [] := ⟨[' '], Or.inr rfl, .cons (covers_self _) .nil⟩
  rw [KeepsLines] at hkeeps
  induction h with
  | nil => exact .nil
  | pair _ ih => exact .cons hempty (ih (breaksShown_cons.mp (breaksShown_cons.mp hkeeps).2).2)
  | hiddenReturn _ ih => exact .cons hpad (ih (breaksShown_cons.mp (breaksShown_cons.mp hkeeps).2).2)
  | breaks _ _ ih => exact .cons hempty (ih (breaksShown_cons.mp hkeeps).2)
  | @hidden c _ cs _ _ hbreak halone hbehind _ =>
    obtain ⟨hfirst, -⟩ := breaksShown_cons.mp hkeeps
    obtain rfl : cs = [] := by
      rcases hfirst hbreak with rfl | hpair | hnil
      · cases hbreak
      · exact absurd hpair halone
      · exact hnil
    cases hbehind
    exact .cons hpad .nil
  | @within a c _ _ ss ls hcovers _ _ ih =>
    cases ih (breaksShown_cons.mp hkeeps).2 with
    | nil => exact .cons ⟨[], Or.inl rfl, .cons hcovers .nil⟩ .nil
    | cons hline hlines =>
      obtain ⟨pad, hpad, hline⟩ := hline
      exact .cons ⟨pad, hpad, .cons hcovers hline⟩ hlines

end Cut

/-! ### What findings are about -/

/-- Line `n` of the mask, and the line of the text that it lies over. -/
structure LineOver (source : List Char) (n : Nat) (shown line : Line) : Prop where
  counted : 1 ≤ n
  shown_eq : (lines (maskComments source))[n - 1]? = some shown
  line_eq : (lines source)[n - 1]? = some line
  lies : LiesOver shown line

/-- The character stands in line `n` of the text, outside of comments. -/
def OnLine (source : List Char) (n : Nat) (c : Char) : Prop :=
  ∃ (shown l : Line) (column : Nat), LineOver source n shown l ∧ shown[column]? = some c ∧ l[column]? = some c

/-- A finding on brackets and the lines where these stand. -/
inductive Brackets (stands : Nat → Char → Prop) : Finding → Prop
  | unmatched {n : Nat} {c : Char} (closing : stands n c) : Brackets stands ⟨n, .unmatchedClosing c⟩
  | mismatched {n m : Nat} {c opening closer : Char} (isPair : (opening, closer) ∈ bracketPairs)
      (opened : stands m opening) (closing : stands n c) : Brackets stands ⟨n, .mismatchedBracket closer m c⟩
  | unclosed {n : Nat} {opening closer : Char} (isPair : (opening, closer) ∈ bracketPairs) (opened : stands n opening) :
      Brackets stands ⟨n, .unclosedBracket closer⟩

/-- The finding names the lines of the text that it is about: for an open comment the last one, for a bracket that where
    it stands, and for all else the line that breaks a rule when its comments are masked. -/
inductive PointsAt (source : List Char) : Finding → Prop
  | openComment (isOpen : endsInComment source = true) : PointsAt source ⟨(lines source).length, .openComment⟩
  | brackets {f : Finding} (isBrackets : Brackets (OnLine source) f) : PointsAt source f
  | rule {n : Nat} {p : Problem} {shown line : Line} (lies : LineOver source n shown line)
      (broken : p ∈ lineErrors shown ++ lineWarnings shown) : PointsAt source ⟨n, p⟩

theorem brackets_of_mem {stands : Nat → Char → Prop} {stack : List Due} {cs : List (Nat × Char)}
    (hstack : ∀ due ∈ stack, ∃ opening, (opening, due.closer) ∈ bracketPairs ∧ stands due.line opening)
    (hcs : ∀ x ∈ cs, isBracket x.2 = true → stands x.1 x.2) :
    ∀ f ∈ bracketFindings stack cs, Brackets stands f := by
  induction cs generalizing stack with
  | nil =>
    intro f hf
    obtain ⟨due, hdue, rfl⟩ := List.mem_map.mp hf
    obtain ⟨opening, hpair, hopened⟩ := hstack due hdue
    exact .unclosed hpair hopened
  | cons x cs ih =>
    obtain ⟨line, c⟩ := x
    obtain ⟨hline, hrest⟩ := List.forall_mem_cons.mp hcs
    have hstep := follows_bracketStep stack line c
    rw [bracketFindings_cons, List.forall_mem_append]
    generalize bracketStep stack line c = next at hstep ⊢
    cases hstep with
    | opens hpair =>
      have hopened := hline (by rw [isBracket, (of_mem_bracketPairs hpair).1, Bool.true_or])
      exact ⟨by simp, ih (List.forall_mem_cons.mpr ⟨⟨c, hpair, hopened⟩, hstack⟩) hrest⟩
    | unmatched hclosing hnot =>
      have hstands := hline (by rw [isBracket, hclosing, Bool.or_true])
      exact ⟨List.forall_mem_singleton.mpr (.unmatched hstands), ih hstack hrest⟩
    | closes hclosing hnot hfits => exact ⟨by simp, ih (List.forall_mem_cons.mp hstack).2 hrest⟩
    | mismatched hclosing hnot =>
      have hstands := hline (by rw [isBracket, hclosing, Bool.or_true])
      obtain ⟨⟨opening, hpair, hopened⟩, hbelow⟩ := List.forall_mem_cons.mp hstack
      exact ⟨List.forall_mem_singleton.mpr (.mismatched hpair hopened hstands), ih hbelow hrest⟩
    | passes hnot => exact ⟨by simp, ih hstack hrest⟩

theorem LiesOver.getElem? {shown l : Line} (h : LiesOver shown l) {i : Nat} {c : Char}
    (hi : shown[i]? = some c) (hc : c ≠ ' ') : l[i]? = some c := by
  obtain ⟨pad, hpad, hcovers⟩ := h
  have hline := getElem?_of_covers hcovers hi hc
  by_cases hlt : i < l.length
  · rwa [List.getElem?_append_left hlt] at hline
  · rw [List.getElem?_append_right (Nat.le_of_not_lt hlt)] at hline
    have hmem := List.mem_of_getElem? hline
    rcases hpad with rfl | rfl
    · cases hmem
    · exact absurd (List.mem_singleton.mp hmem) hc

section Reports

variable {source : List Char} (hkeeps : KeepsLines (maskComments source) source)
include hkeeps

theorem lineOver_of_getElem? {i : Nat} {shown : Line} (h : (lines (maskComments source))[i]? = some shown) :
    ∃ line, LineOver source (i + 1) shown line := by
  have hlines := (cutAlong_lines (mask_covers .code source)).liesOver hkeeps
  obtain ⟨hi, heq⟩ := List.getElem?_eq_some_iff.mp h
  have hi' : i < (lines source).length := hlines.length_eq ▸ hi
  refine ⟨(lines source)[i], Nat.le_add_left 1 i, h, List.getElem?_eq_getElem hi', ?_⟩
  rw [← heq]
  exact hlines.get hi hi'

theorem onLine_of_mem {x : Nat × Char} (h : x ∈ numberedChars (lines (maskComments source)))
    (hbracket : isBracket x.2 = true) : OnLine source x.1 x.2 := by
  obtain ⟨⟨shown, number⟩, hshown, hx⟩ := List.mem_flatMap.mp h
  obtain ⟨c, hc, rfl⟩ := List.mem_map.mp hx
  obtain ⟨column, hcolumn⟩ := List.getElem?_of_mem hc
  obtain ⟨hleast, hget⟩ := List.mem_zipIdx_iff_le_and_getElem?_sub.mp hshown
  obtain ⟨line, hover⟩ := lineOver_of_getElem? hkeeps hget
  rw [Nat.sub_add_cancel hleast] at hover
  have hspace : c ≠ ' ' := by
    rintro rfl
    cases hbracket
  exact ⟨shown, line, column, hover, hcolumn, hover.lies.getElem? hcolumn hspace⟩

theorem pointsAt_of_mem_byLine {rule : Line → List Problem} {f : Finding}
    (h : f ∈ byLine rule (lines (maskComments source)))
    (hrule : ∀ shown, rule shown ⊆ lineErrors shown ++ lineWarnings shown) : PointsAt source f := by
  obtain ⟨⟨shown, number⟩, hshown, hf⟩ := List.mem_flatMap.mp h
  obtain ⟨p, hp, rfl⟩ := List.mem_map.mp hf
  obtain ⟨hleast, hget⟩ := List.mem_zipIdx_iff_le_and_getElem?_sub.mp hshown
  obtain ⟨line, hover⟩ := lineOver_of_getElem? hkeeps hget
  rw [Nat.sub_add_cancel hleast] at hover
  exact .rule hover (hrule shown hp)

theorem pointsAt_of_mem_report {s : String} (hs : s.toList = source) :
    ∀ f ∈ (report s).errors ++ (report s).warnings, PointsAt source f := by
  subst hs
  intro f hf
  rw [errors_report, warnings_report] at hf
  simp only [List.mem_append] at hf
  rcases hf with ((hopen | hbrackets) | herror) | hwarning
  · split at hopen
    · next hends =>
      obtain rfl := List.mem_singleton.mp hopen
      have hlength : (lines (maskComments s.toList)).length = (lines s.toList).length :=
        (cutAlong_lines (mask_covers .code s.toList)).length_eq_iff.2.mpr hkeeps
      rw [hlength]
      exact .openComment hends
    · cases hopen
  · exact .brackets (brackets_of_mem (by simp) (fun x hx => onLine_of_mem hkeeps hx) f hbrackets)
  · exact pointsAt_of_mem_byLine hkeeps herror fun _ => List.subset_append_left _ _
  · exact pointsAt_of_mem_byLine hkeeps hwarning fun _ => List.subset_append_right _ _

end Reports

/-- Masked, a text has lines of the same lengths exactly if no line break of it is hidden by a comment, and equally many
    lines exactly if no break is hidden but the carriage returns of line feeds and a break at the very end. Then every
    finding names the lines of the text that it is about. -/
theorem lines_kept_iff_breaks_shown (source : String) :
    ((lines (maskComments source.toList)).map List.length = (lines source.toList).map List.length ↔
      ShowsBreaks (maskComments source.toList) source.toList) ∧
    ((lines (maskComments source.toList)).length = (lines source.toList).length ↔
      KeepsLines (maskComments source.toList) source.toList) ∧
    (KeepsLines (maskComments source.toList) source.toList →
      ∀ f ∈ (report source).errors ++ (report source).warnings, PointsAt source.toList f) := by
  have hcut := cutAlong_lines (mask_covers .code source.toList)
  exact ⟨hcut.lengths_eq_iff, hcut.length_eq_iff.2, fun hkeeps => pointsAt_of_mem_report hkeeps rfl⟩

/-- The comment hides a break, so the bracket in the third line is reported for the second. -/
example : (lines "/* one\r   two */\n)".toList).length = 3 ∧
    (report "/* one\r   two */\n)").errors = [⟨2, .unmatchedClosing ')'⟩] := by decide

end AcornCatalog.Check
