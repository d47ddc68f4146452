import AcornCatalog.Check.Report
import AcornCatalog.Proofs.Check.Bracket
import AcornCatalog.Proofs.Check.Comment
import AcornCatalog.Proofs.Text.Occurrence

/-! Reports on texts whose comments differ, and on texts put together. A report is made from the mask of a text alone:
of its comments it only tells whether the last one is open. And as a text without mistakes leaves no comment and no
bracket open, the report on what follows it is the same as if it stood alone, further down. -/

namespace AcornCatalog.Check

open Text Reader

/-! ### Problems of single lines -/

/-- Whether a problem is told from one line alone. -/
def Problem.isLocal : Problem → Bool
  | .openComment | .unmatchedClosing _ | .mismatchedBracket .. | .unclosedBracket _ => false
  | _ => true

theorem Problem.down_of_isLocal {p : Problem} (h : p.isLocal = true) (k : Nat) : p.down k = p := by
  cases p <;> first | rfl | cases h

/-- All of some problems are told from one line. -/
def AllLocal (ps : List Problem) : Prop := ∀ p ∈ ps, p.isLocal = true

namespace AllLocal

variable {ps qs : List Problem} {p : Problem}

theorem nil : AllLocal [] := fun _ h => absurd h List.not_mem_nil

theorem single (h : p.isLocal = true) : AllLocal [p] := fun _ hq => List.mem_singleton.mp hq ▸ h

theorem append (hp : AllLocal ps) (hq : AllLocal qs) : AllLocal (ps ++ qs) := List.forall_mem_append.mpr ⟨hp, hq⟩

theorem flatMap {α : Type} {f : α → List Problem} (h : ∀ a, AllLocal (f a)) (as : List α) :
    AllLocal (as.flatMap f) := by
  intro q hq
  obtain ⟨a, -, hq⟩ := List.mem_flatMap.mp hq
  exact h a q hq

theorem ite {c : Prop} [Decidable c] (hp : AllLocal ps) (hq : AllLocal qs) : AllLocal (if c then ps else qs) := by
  split
  · exact hp
  · exact hq

theorem getD {α : Type} {f : α → List Problem} (h : ∀ a, AllLocal (f a)) (o : Option α) :
    AllLocal ((o.map f).getD []) := by
  cases o with
  | none => exact nil
  | some a => exact h a

theorem complainUnless {α : Type} {r : Reader α} {good : α → Bool} (h : p.isLocal = true) (line : Line) :
    AllLocal (complainUnless r good p line) := by
  unfold Check.complainUnless
  split
  · exact ite nil (single h)
  · exact nil

end AllLocal

section Rules

variable (line : Line)

theorem allLocal_signatureProblems (signature : List Char) : AllLocal (signatureProblems signature) :=
  .flatMap (fun _ => .ite (.ite .nil (.single rfl)) (.single rfl)) _

theorem allLocal_resultProblems : AllLocal (resultProblems line) := by
  unfold resultProblems
  split
  · exact .single rfl
  · exact .ite .nil (.single rfl)

theorem allLocal_definitionProblems : AllLocal (definitionProblems line) := by
  unfold definitionProblems
  split
  · exact .nil
  · exact .append (.getD (fun _ => allLocal_signatureProblems _) _) (allLocal_resultProblems line)

theorem allLocal_bindingProblems : AllLocal (bindingProblems line) := by
  unfold bindingProblems
  split
  · exact .nil
  · exact .ite (.single rfl) .nil

theorem allLocal_quantifierProblems (quantifier : String) : AllLocal (quantifierProblems quantifier line) := by
  refine .flatMap (fun inner p hp => ?_) _
  obtain ⟨binder, -, rfl⟩ := List.mem_map.mp hp
  rfl

theorem allLocal_moduleProblems : AllLocal (moduleProblems line) :=
  .append (.complainUnless rfl line) (.complainUnless rfl line)

theorem allLocal_typeNameProblems : AllLocal (typeNameProblems line) :=
  .append (.append (.append (.complainUnless rfl line) (.flatMap (fun _ => .complainUnless rfl line) _))
    (.complainUnless rfl line)) (.complainUnless rfl line)

theorem allLocal_lineErrors : AllLocal (lineErrors line) :=
  .append (.append (.append (.append (.append (.append (allLocal_moduleProblems line) (allLocal_typeNameProblems line))
    (allLocal_definitionProblems line)) (allLocal_bindingProblems line)) (allLocal_quantifierProblems line _))
    (allLocal_quantifierProblems line _)) (.getD allLocal_signatureProblems _)

theorem allLocal_lineWarnings : AllLocal (lineWarnings line) :=
  .append (.complainUnless rfl line) (.ite (.single rfl) .nil)

end Rules

/-! ### Blank lines -/

section Blank

variable {line : Line} (h : allBlank line = true)
include h

theorem leading_of_allBlank {keyword : String} (hkeyword : keyword.toList ≠ []) : leading keyword line = none := by
  have hrest : line.dropWhile isBlank = [] := List.dropWhile_eq_nil_iff.mpr (List.all_eq_true.mp h)
  change (literal keyword >>= fun _ => someBlanks) (line.dropWhile isBlank) = none
  rw [hrest]
  refine bind_eq_none ?_
  rw [literal, Option.map_eq_none_iff]
  cases hchars : keyword.toList with
  | nil => exact absurd hchars hkeyword
  | cons c cs => rfl

theorem namedAfter_of_allBlank {keyword : String} (hkeyword : keyword.toList ≠ []) : namedAfter keyword line = none :=
  bind_eq_none (leading_of_allBlank h hkeyword)

theorem quantifierProblems_of_allBlank {quantifier : String} {c : Char} {cs : List Char}
    (hquantifier : quantifier.toList = c :: cs) (hc : isBlank c = false) : quantifierProblems quantifier line = [] := by
  refine List.flatMap_eq_nil_iff.mpr fun inner hinner => ?_
  obtain ⟨o, ho, -⟩ := List.mem_map.mp hinner
  obtain ⟨i, before, _, -, hprobe⟩ := mem_occurrencesFrom ho
  -- no blank begins the quantifier
  have hnone : binders quantifier (line.drop i) = none := by
    refine bind_eq_none ?_
    rw [literal, Option.map_eq_none_iff, Option.eq_none_iff_forall_ne_some]
    intro rest hrest
    have hmem : c ∈ line.drop i := by
      rw [dropLead?_eq_some hrest, hquantifier]
      exact List.mem_cons_self ..
    rw [List.all_eq_true.mp h c (List.mem_of_mem_drop hmem)] at hc
    cases hc
  unfold atWordStart at hprobe
  split at hprobe
  · cases hprobe
  · rw [hnone] at hprobe
    cases hprobe

theorem lineErrors_of_allBlank : lineErrors line = [] := by
  have complain {α : Type} {r : Reader α} {good : α → Bool} {p : Problem} (hr : r line = none) :
      complainUnless r good p line = [] := by
    rw [complainUnless, read?, hr]
    rfl
  have hinstance : instanceNames line = none := bind_eq_none (namedAfter_of_allBlank h (by decide))
  have hdefined : defined line = none := bind_eq_none (leading_of_allBlank h (by decide))
  have hlet : leading "let" line = none := leading_of_allBlank h (by decide)
  have htheorem : theoremParameters line = none := bind_eq_none (leading_of_allBlank h (by decide))
  simp only [lineErrors, moduleProblems, typeNameProblems, List.append_eq_nil_iff, and_assoc]
  refine ⟨complain (bind_eq_none (leading_of_allBlank h (by decide))),
    complain (bind_eq_none (leading_of_allBlank h (by decide))), complain (namedAfter_of_allBlank h (by decide)), ?_,
    complain hinstance, complain hinstance, ?_, ?_, quantifierProblems_of_allBlank h rfl (by decide),
    quantifierProblems_of_allBlank h rfl (by decide), ?_⟩
  · refine List.flatMap_eq_nil_iff.mpr fun keyword hkeyword => complain (namedAfter_of_allBlank h ?_)
    revert keyword
    decide
  · rw [definitionProblems, read?, hdefined]
    rfl
  · rw [bindingProblems, read?, hlet]
    rfl
  · rw [theoremProblems, read?, htheorem]
    rfl

end Blank

/-! ### Lines put together -/

section ByLine

variable {rule : Line → List Problem}

theorem byLine_append (hrule : ∀ line, AllLocal (rule line)) (upper lower : List Line) :
    byLine rule (upper ++ lower) = byLine rule upper ++ (byLine rule lower).map (Finding.down upper.length) := by
  have hlower : lower.zipIdx (1 + upper.length) = (lower.zipIdx 1).map (Prod.map id (· + upper.length)) := by
    rw [List.map_snd_add_zipIdx_eq_zipIdx, Nat.add_comm]
  simp only [byLine, List.zipIdx_append, hlower, List.flatMap_append, List.flatMap_map, List.map_flatMap, List.map_map]
  congr 2
  funext ⟨line, number⟩
  refine List.map_congr_left fun p hp => ?_
  simp only [Function.comp_apply, Finding.down, Problem.down_of_isLocal (hrule line p hp), Prod.map]

theorem byLine_eq_nil_iff {ls : List Line} : byLine rule ls = [] ↔ ∀ line ∈ ls, rule line = [] := by
  simp only [byLine, List.flatMap_eq_nil_iff, List.map_eq_nil_iff]
  constructor
  · intro h line hline
    rw [← List.zipIdx_map_fst 1 ls] at hline
    obtain ⟨numbered, hmem, rfl⟩ := List.mem_map.mp hline
    exact h numbered hmem
  · rintro h ⟨line, number⟩ hmem
    exact h line (List.fst_mem_of_mem_zipIdx hmem)

/-- A line feed at the end of a text makes no difference to a rule that finds nothing in an empty line. -/
theorem byLine_feed (hrule : ∀ line, AllLocal (rule line)) (hempty : rule [] = []) (cs : List Char) :
    byLine rule (lines (cs ++ ['\n'])) = byLine rule (lines cs) := by
  rcases lines_feed cs with h | h
  · rw [h]
  · rw [h, byLine_append hrule, byLine_eq_nil_iff.mpr (List.forall_mem_singleton.mpr hempty), List.map_nil,
      List.append_nil]

end ByLine

theorem checkBrackets_feed (cs : List Char) :
    checkBrackets (lines (cs ++ ['\n'])) = [] ↔ checkBrackets (lines cs) = [] := by
  have hflat : (lines (cs ++ ['\n'])).flatten = (lines cs).flatten := by
    rcases lines_feed cs with h | h
    · rw [h]
    · rw [h, List.flatten_append]
      exact List.append_nil _
  exact ⟨checkBrackets_eq_nil_congr hflat, checkBrackets_eq_nil_congr hflat.symm⟩

/-! ### Reports -/

/-- No masked line is left without a line of the text below it. -/
theorem coveringLines_eq (cs : List Char) : coveringLines cs = lines (maskComments cs) :=
  List.map_fst_zip (length_lines_le_of_covers (mask_covers .code cs))

theorem errors_report (source : String) : (report source).errors =
    (if endsInComment source.toList then [⟨(lines (maskComments source.toList)).length, .openComment⟩] else []) ++
      checkBrackets (lines (maskComments source.toList)) ++
      byLine lineErrors (lines (maskComments source.toList)) := by
  rw [report, coveringLines_eq]

theorem warnings_report (source : String) :
    (report source).warnings = byLine lineWarnings (lines (maskComments source.toList)) := by
  rw [report, coveringLines_eq]

/-- The masked lines of a text, ended by a line feed. -/
def closedLines (source : String) : List Line := lines (maskComments source.toList ++ ['\n'])

theorem isValid_report_iff {source : String} : (report source).isValid = true ↔
    endsInComment source.toList = false ∧ checkBrackets (closedLines source) = [] ∧
      ∀ line ∈ closedLines source, lineErrors line = [] := by
  rw [Report.isValid, errors_report, List.isEmpty_iff, List.append_eq_nil_iff, List.append_eq_nil_iff, and_assoc,
    closedLines, checkBrackets_feed, ← byLine_eq_nil_iff, byLine_feed allLocal_lineErrors rfl, ite_eq_right_iff]
  simp

theorem ne_openComment_of_bracketStep {stack : List Due} {line : Nat} {c : Char} {f : Finding}
    (h : f ∈ (bracketStep stack line c).1) : f.problem ≠ .openComment := by
  unfold bracketStep at h
  split at h
  · cases h
  · split at h
    · cases stack with
      | nil =>
        rw [List.mem_singleton.mp h]
        exact Problem.noConfusion
      | cons due stack =>
        simp only at h
        split at h
        · cases h
        · rw [List.mem_singleton.mp h]
          exact Problem.noConfusion
    · cases h

theorem ne_openComment_of_bracketFindings {stack : List Due} {cs : List (Nat × Char)} {f : Finding}
    (h : f ∈ bracketFindings stack cs) : f.problem ≠ .openComment := by
  induction cs generalizing stack with
  | nil =>
    obtain ⟨due, -, rfl⟩ := List.mem_map.mp h
    exact Problem.noConfusion
  | cons x cs ih =>
    obtain ⟨line, c⟩ := x
    rw [bracketFindings_cons] at h
    rcases List.mem_append.mp h with h | h
    · exact ne_openComment_of_bracketStep h
    · exact ih h

theorem ne_openComment_of_byLine {rule : Line → List Problem} (hrule : ∀ line, AllLocal (rule line)) {ls : List Line}
    {f : Finding} (h : f ∈ byLine rule ls) : f.problem ≠ .openComment := by
  obtain ⟨⟨line, number⟩, -, h⟩ := List.mem_flatMap.mp h
  obtain ⟨p, hp, rfl⟩ := List.mem_map.mp h
  rintro rfl
  cases hrule line _ hp

/-! ### Comments -/

/-- A text with its comments masked, as a text of its own. -/
def masked (source : String) : String := String.ofList (maskComments source.toList)

/-- A text gets the report of its mask, behind the one finding that a comment is open if the text ends within one: so
    no report depends on what comments say. -/
theorem report_eq_of_mask (source : String) :
    (report source).warnings = (report (masked source)).warnings ∧
    (report source).errors =
      (if endsInComment source.toList then [⟨(lines (masked source).toList).length, .openComment⟩] else []) ++
        (report (masked source)).errors ∧
    (∀ f ∈ (report (masked source)).errors, f.problem ≠ .openComment) ∧
    ∀ other : String, maskComments other.toList = maskComments source.toList →
      endsInComment other.toList = endsInComment source.toList → report other = report source := by
  have hlist : (masked source).toList = maskComments source.toList := String.toList_ofList
  have hmask : maskComments (masked source).toList = maskComments source.toList := by
    rw [hlist, maskComments_maskComments]
  have hclosed : endsInComment (masked source).toList = false := by rw [hlist, endsInComment_maskComments]
  have herrors : (report (masked source)).errors =
      checkBrackets (lines (maskComments source.toList)) ++ byLine lineErrors (lines (maskComments source.toList)) := by
    rw [errors_report, hclosed, hmask]
    rfl
  refine ⟨?_, ?_, ?_, ?_⟩
  · rw [warnings_report, warnings_report, hmask]
  · rw [errors_report, herrors, hlist, List.append_assoc]
  · intro f hf
    rw [herrors] at hf
    rcases List.mem_append.mp hf with hf | hf
    · exact ne_openComment_of_bracketFindings hf
    · exact ne_openComment_of_byLine allLocal_lineErrors hf
  · intro other hother hopen
    simp only [report, coveringLines_eq, hother, hopen]

/-- Of a single line without comments, whose brackets are balanced, the rules on lines decide. -/
theorem isValid_report_line_iff {line : Line} (hmask : mask .code line = (line, .code)) (hline : Unbroken line)
    (hbalanced : Balanced line) : (report (String.ofList line)).isValid = true ↔ lineErrors line = [] := by
  have hlines : closedLines (String.ofList line) = [line] := by
    rw [closedLines, String.toList_ofList, maskComments, hmask, lines_append_feed hline]
    rfl
  have hbrackets : checkBrackets [line] = [] := by
    simp only [checkBrackets, numberedChars, List.zipIdx_cons, List.zipIdx_nil, List.flatMap_cons, List.flatMap_nil,
      List.append_nil]
    exact hbalanced 1
  have hopen : endsInComment (String.ofList line).toList = false := by
    rw [String.toList_ofList, endsInComment, hmask]
    rfl
  rw [isValid_report_iff, hlines, List.forall_mem_singleton]
  exact ⟨fun h => h.2.2, fun h => ⟨hopen, hbrackets, h⟩⟩

theorem bracketFindings_spaces (stack : List Due) (line n : Nat) :
    bracketFindings stack (List.replicate n (line, ' ')) = bracketFindings stack [] := by
  induction n with
  | zero => rfl
  | succ n ih => exact ih

/-- A comment on one line is a text without mistakes, whatever it says. -/
theorem isValid_report_comment {source : String} (hmarks : source.toList.take 2 = ['/', '/'])
    (hfeed : '\n' ∉ source.toList) : (report source).isValid = true := by
  obtain ⟨cs, hcs⟩ : ∃ cs, source.toList = '/' :: '/' :: cs :=
    ⟨source.toList.drop 2, by rw [← List.take_append_drop 2 source.toList, hmarks]; rfl⟩
  have hmask : mask .code source.toList = (List.replicate (cs.length + 2) ' ', .lineComment) := by
    rw [hcs] at hfeed ⊢
    rw [mask, mask_lineComment fun h => hfeed (List.mem_cons_of_mem _ (List.mem_cons_of_mem _ h))]
    rfl
  have hlines : closedLines source = [List.replicate (cs.length + 2) ' '] := by
    rw [closedLines, maskComments, hmask, lines_append_feed]
    · rfl
    · exact fun c hc => List.eq_of_mem_replicate hc ▸ rfl
  rw [isValid_report_iff, hlines]
  refine ⟨by rw [endsInComment, hmask]; rfl, ?_, List.forall_mem_singleton.mpr (lineErrors_of_allBlank ?_)⟩
  · simp only [checkBrackets, numberedChars, List.zipIdx_cons, List.zipIdx_nil, List.flatMap_cons, List.flatMap_nil,
      List.append_nil, List.map_replicate]
    exact bracketFindings_spaces [] 1 _
  · exact List.all_eq_true.mpr fun c hc => List.eq_of_mem_replicate hc ▸ rfl

/-! ### Texts put together -/

section Append

variable {a : String} (hopen : endsInComment a.toList = false) (b : String)
include hopen

theorem lines_maskComments_append : lines (maskComments (a ++ "\n" ++ b).toList) =
    closedLines a ++ lines (maskComments b.toList) := by
  have htext : (a ++ "\n" ++ b).toList = a.toList ++ '\n' :: b.toList := by simp
  rw [htext, maskComments_append_feed hopen, lines_feed_append]
  rfl

theorem closedLines_append : closedLines (a ++ "\n" ++ b) = closedLines a ++ closedLines b := by
  have htext : (a ++ "\n" ++ b).toList = a.toList ++ '\n' :: b.toList := by simp
  rw [closedLines, htext, maskComments_append_feed hopen, List.append_assoc, List.cons_append, lines_feed_append]
  rfl

theorem endsInComment_append : endsInComment (a ++ "\n" ++ b).toList = endsInComment b.toList := by
  have htext : (a ++ "\n" ++ b).toList = a.toList ++ '\n' :: b.toList := by simp
  rw [htext, endsInComment_append_feed hopen]

end Append

section Valid

variable {a : String} (h : (report a).isValid = true) (b : String)
include h

theorem errors_report_append :
    (report (a ++ "\n" ++ b)).errors = (report b).errors.map (Finding.down (closedLines a).length) := by
  obtain ⟨hopen, hbrackets, hlines⟩ := isValid_report_iff.mp h
  rw [errors_report, errors_report, lines_maskComments_append hopen, endsInComment_append hopen,
    checkBrackets_append hbrackets, byLine_append allLocal_lineErrors, byLine_eq_nil_iff.mpr hlines, List.nil_append,
    List.map_append, List.map_append, List.length_append, Nat.add_comm]
  congr 2
  split <;> rfl

theorem warnings_report_append : (report (a ++ "\n" ++ b)).warnings =
    (report a).warnings ++ (report b).warnings.map (Finding.down (closedLines a).length) := by
  rw [warnings_report, warnings_report, warnings_report, lines_maskComments_append (isValid_report_iff.mp h).1,
    byLine_append allLocal_lineWarnings, closedLines, byLine_feed allLocal_lineWarnings rfl]

end Valid

section Pieces

variable {pieces : List String} (hopen : ∀ piece ∈ pieces, endsInComment piece.toList = false)
include hopen

theorem closedLines_intercalate (hne : pieces ≠ []) :
    endsInComment ("\n".intercalate pieces).toList = false ∧
      closedLines ("\n".intercalate pieces) = pieces.flatMap closedLines := by
  induction pieces with
  | nil => exact absurd rfl hne
  | cons piece rest ih =>
    have hpiece := hopen piece (List.mem_cons_self ..)
    cases rest with
    | nil =>
      rw [String.intercalate_singleton]
      exact ⟨hpiece, (List.flatMap_singleton ..).symm⟩
    | cons next rest =>
      obtain ⟨hrest, hlines⟩ := ih (fun p hp => hopen p (List.mem_cons_of_mem _ hp)) (List.cons_ne_nil _ _)
      rw [String.intercalate_cons_cons, endsInComment_append hpiece, closedLines_append hpiece, hlines]
      exact ⟨hrest, rfl⟩

theorem isValid_report_intercalate_iff : (report ("\n".intercalate pieces)).isValid = true ↔
    checkBrackets (pieces.flatMap closedLines) = [] ∧ ∀ line ∈ pieces.flatMap closedLines, lineErrors line = [] := by
  by_cases hne : pieces = []
  · subst hne
    exact iff_of_true rfl ⟨rfl, fun _ h => absurd h List.not_mem_nil⟩
  · obtain ⟨hclosed, hlines⟩ := closedLines_intercalate hopen hne
    rw [isValid_report_iff, hlines]
    exact and_iff_right hclosed

end Pieces

/-- The texts that have mistakes. -/
def mistaken (pieces : List String) : List String := pieces.filter fun piece => !(report piece).isValid

theorem checkBrackets_mistaken (pieces : List String) (upper : List Line) :
    checkBrackets (upper ++ pieces.flatMap closedLines) = [] ↔
      checkBrackets (upper ++ (mistaken pieces).flatMap closedLines) = [] := by
  induction pieces generalizing upper with
  | nil => exact Iff.rfl
  | cons piece rest ih =>
    rw [List.flatMap_cons]
    by_cases hvalid : (report piece).isValid = true
    · have hskip : mistaken (piece :: rest) = mistaken rest := by simp [mistaken, hvalid]
      rw [hskip, checkBrackets_between (isValid_report_iff.mp hvalid).2.1]
      exact ih upper
    · have hkeep : mistaken (piece :: rest) = piece :: mistaken rest := by simp [mistaken, hvalid]
      rw [hkeep, List.flatMap_cons, ← List.append_assoc, ← List.append_assoc]
      exact ih (upper ++ closedLines piece)

/-- Texts without mistakes can be left out from between others, as long as no text ends within a comment. -/
theorem isValid_report_mistaken {pieces : List String} (hopen : ∀ piece ∈ pieces, endsInComment piece.toList = false) :
    (report ("\n".intercalate pieces)).isValid = true ↔
      (report ("\n".intercalate (mistaken pieces))).isValid = true := by
  have hsub : mistaken pieces ⊆ pieces := List.filter_subset_self _
  have hlines : (∀ line ∈ pieces.flatMap closedLines, lineErrors line = []) ↔
      ∀ line ∈ (mistaken pieces).flatMap closedLines, lineErrors line = [] := by
    simp only [List.mem_flatMap, forall_exists_index, and_imp]
    refine ⟨fun h line piece hpiece => h line piece (hsub hpiece), fun h line piece hpiece hline => ?_⟩
    by_cases hvalid : (report piece).isValid = true
    · exact (isValid_report_iff.mp hvalid).2.2 line hline
    · exact h line piece (List.mem_filter.mpr ⟨hpiece, by simp [hvalid]⟩) hline
  rw [isValid_report_intercalate_iff hopen,
    isValid_report_intercalate_iff fun piece hpiece => hopen piece (hsub hpiece), hlines]
  exact and_congr_left' (checkBrackets_mistaken pieces [])

theorem isValid_report_intercalate {sources : List String} (h : ∀ s ∈ sources, (report s).isValid = true) :
    (report ("\n".intercalate sources)).isValid = true := by
  have hnone : mistaken sources = [] := List.filter_eq_nil_iff.mpr fun s hs => by simp [h s hs]
  rw [isValid_report_mistaken fun s hs => (isValid_report_iff.mp (h s hs)).1, hnone]
  rfl

/-- Below a text without mistakes, and a line feed, a text has its own mistakes, further down by the lines above it, and
    what looks odd in both is told in turn. So texts without mistakes, one below the other, make a text without
    mistakes. -/
theorem report_append (a b : String) (h : (report a).isValid = true) :
    let n := (lines (maskComments a.toList ++ ['\n'])).length
    (report (a ++ "\n" ++ b)).errors = (report b).errors.map (Finding.down n) ∧
    (report (a ++ "\n" ++ b)).warnings = (report a).warnings ++ (report b).warnings.map (Finding.down n) ∧
    ∀ sources : List String, (∀ s ∈ sources, (report s).isValid = true) →
      (report ("\n".intercalate sources)).isValid = true :=
  ⟨errors_report_append h b, warnings_report_append h b, fun _ => isValid_report_intercalate⟩

/-- The upper text ends with a carriage return, which is one break with the line feed behind it, and a bracket in its
    comment stays open; the line that is quoted for the bracket in the lower text moves along. -/
theorem report_append_behind_return :
    let a := "// \x7b\ndefine Id(x: Nat) -> Nat \x7b x \x7d\r"
    let b := "(\n\x7d"
    (report a).isValid = true ∧ (report (a ++ "\n" ++ b)).errors = [⟨4, .mismatchedBracket ')' 3 '}'⟩] ∧
      (report (a ++ "\n" ++ b)).warnings = [⟨2, .functionName⟩] := by
  intro a b
  have hvalid : (report a).isValid = true := by decide
  obtain ⟨herrors, hwarnings, -⟩ := report_append a b hvalid
  refine ⟨hvalid, ?_, ?_⟩
  · rw [herrors]
    decide
  · rw [hwarnings]
    decide

end AcornCatalog.Check
