import AcornCatalog.Proofs.Check.Report
import AcornCatalog.Proofs.Declaration.Parameter
import AcornCatalog.Proofs.Text.Scan

/-! Which lists of parameters pass. A list is cut at its commas and each piece has to have a type, so a list is faulted
for every piece that a comma within a type makes, and for a parameter that goes without a type. Apart from that nothing
is wrong with the line of a function, or with that of a quantifier, whose parameters and result have types as the
language writes them. -/

namespace AcornCatalog.Check

open Text Reader Header Dependency

/-! ### Brackets of types -/

theorem no_bracket_of {p : Char → Bool} (hp : ['(', ')', '[', ']', '{', '}'].all (fun d => !p d) = true) {c : Char}
    (h : p c = true) : closerOf? c = none ∧ isCloser c = false := by
  have hne {d : Char} (hd : p d = false) : c ≠ d := by
    rintro rfl
    rw [h] at hd
    cases hd
  simp only [List.all_cons, List.all_nil, Bool.and_true, Bool.and_eq_true, Bool.not_eq_true'] at hp
  obtain ⟨h₁, h₂, h₃, h₄, h₅, h₆⟩ := hp
  simp [closerOf?, isCloser, hne h₁, hne h₂, hne h₃, hne h₄, hne h₅, hne h₆]

theorem balanced_of_isName {cs : List Char} (h : IsName cs) : Balanced cs :=
  balanced_of_no_bracket fun c hc => no_bracket_of rfl (h c hc)

theorem balanced_of_allBlank {cs : List Char} (h : allBlank cs = true) : Balanced cs :=
  balanced_of_no_bracket fun c hc => no_bracket_of rfl (List.all_eq_true.mp h c hc)

theorem Balanced.of_trim {cs : List Char} (h : Balanced (trim cs)) : Balanced cs := by
  obtain ⟨front, back, hfront, hback, hcs⟩ := exists_blanks_trim cs
  rw [hcs]
  exact (balanced_of_allBlank hfront).append (h.append (balanced_of_allBlank hback))

theorem balanced_intercalate {sep : List Char} (hsep : Balanced sep) {pieces : List (List Char)}
    (h : ∀ piece ∈ pieces, Balanced piece) : Balanced (sep.intercalate pieces) := by
  induction pieces with
  | nil => exact fun _ => rfl
  | cons piece pieces ih =>
    have hpiece := h piece (List.mem_cons_self ..)
    cases pieces with
    | nil => rwa [List.intercalate_singleton]
    | cons next pieces =>
      rw [List.intercalate_cons_cons]
      exact (hpiece.append hsep).append (ih fun p hp => h p (List.mem_cons_of_mem _ hp))

theorem balanced_of_genericText {t : List Char} (h : GenericText t) : Balanced t := by
  induction h with
  | name hn => exact balanced_of_isName hn.name
  | @generic n args hn hne hargs ih =>
    have hinner : Balanced ([','].intercalate args) := balanced_intercalate (fun _ => rfl) fun a ha => (ih a ha).of_trim
    rw [List.append_assoc, List.cons_append]
    exact (balanced_of_isName hn.name).append (hinner.enclose rfl)

/-! ### Faults in a list of parameters -/

/-- A comma within a type makes a piece behind it, with the bracket at the end of the type. -/
theorem exists_piece {t : List Char} (h : GenericText t) (hcomma : ',' ∈ t) :
    ∃ piece ∈ (cut ',' t).tail, ']' ∈ piece := by
  rcases h.isName_or_bracketed with hname | ⟨front, rfl, -⟩
  · exact absurd hcomma (hname.not_mem rfl)
  · have hfront : ',' ∈ front := by simpa using hcomma
    obtain ⟨a, b, rfl⟩ := List.append_of_mem hfront
    have hbracket : ']' ∈ b ++ [']'] := List.mem_append_right b (List.mem_singleton_self ']')
    obtain ⟨piece, hpiece, hmem⟩ := exists_mem_cut hbracket (show ']' ≠ ',' by decide)
    refine ⟨piece, ?_, hmem⟩
    rw [List.append_assoc, List.cons_append, cut_append, cut_eq_cons]
    exact List.mem_append_right _ hpiece

/-- Every piece of a list has a colon, so something stands for its type. -/
def Annotated (cs : List Char) : Prop := ∀ piece ∈ filledPieces cs, ':' ∈ piece

theorem binderProblems_eq_nil_iff {quantifier : String} {cs : List Char} :
    binderProblems quantifier cs = [] ↔ Annotated cs := by
  simp only [binderProblems, List.map_eq_nil_iff, List.filter_eq_nil_iff, Annotated, filledPieces, List.mem_filter,
    Bool.and_eq_true, Bool.not_eq_true', not_and, Bool.not_eq_false, List.contains_iff_mem, and_imp]

theorem annotated_listed_iff {texts : List (List Char)} :
    Annotated (listed texts) ↔ ∀ text ∈ texts, Annotated text := by
  simp only [Annotated, filledPieces_listed, List.mem_flatMap, forall_exists_index, and_imp]
  exact ⟨fun h text htext piece hpiece => h piece text htext hpiece,
    fun h piece text htext hpiece => h text htext piece hpiece⟩

theorem capitalised_trim {c : Char} (hc : c.isUpper = true) (rest : List Char) :
    capitalised (trim (c :: rest)) = true := by
  have hblank : isBlank c = false := isBlank_eq_false_of_isNameChar (isNameChar_of_isUpper hc)
  have hstart : trimStart (c :: rest) = [] ++ c :: rest := by simp [trimStart, hblank]
  rw [trim, hstart, trimEnd_append_cons hblank]
  exact hc

section Parameters

variable (p : Parameter)

theorem filledPieces_text {piece : Line} (h : piece ∈ filledPieces p.text) :
    piece = trim (p.name ++ (": ".toList ++ p.type.takeWhile (· != ','))) ∨
      ∃ back ∈ (cut ',' p.type).tail, piece = trim back := by
  obtain ⟨hmem, -⟩ := List.mem_filter.mp h
  rw [commaPieces, p.cut_text, List.map_cons] at hmem
  rcases List.mem_cons.mp hmem with rfl | hmem
  · exact Or.inl rfl
  · obtain ⟨back, hback, rfl⟩ := List.mem_map.mp hmem
    exact Or.inr ⟨back, hback, rfl⟩

/-- What has a colon is the front of a parameter, and its type begins with a capital. -/
theorem parameterProblems_of_mem {piece : Line} (h : piece ∈ filledPieces p.text) (hcolon : ':' ∈ piece) :
    parameterProblems piece = [] := by
  rcases filledPieces_text p h with rfl | ⟨back, hback, rfl⟩
  · obtain ⟨c, run, htype, hc⟩ := p.genericText.exists_cons
    have hblank : isBlank c = false := isBlank_eq_false_of_isNameChar (isNameChar_of_isUpper hc)
    have hfront : p.type.takeWhile (· != ',') = c :: run.takeWhile (· != ',') := by
      have hcomma : c ≠ ',' := by
        rintro rfl
        cases hc
      simp [htype, hcomma]
    have hpiece : trim (p.name ++ (": ".toList ++ c :: run.takeWhile (· != ','))) =
        p.name ++ ':' :: ' ' :: c :: trimEnd (run.takeWhile (· != ',')) := by
      have hstart : trimStart (p.name ++ (": ".toList ++ c :: run.takeWhile (· != ','))) =
          p.name ++ ": ".toList ++ c :: run.takeWhile (· != ',') := by
        obtain ⟨d, more, hname, hd, -⟩ := p.isVariable.exists_cons
        simp [trimStart, hname, isBlank_eq_false_of_isNameChar (isNameChar_of_isLowerStart hd)]
      rw [trim, hstart, trimEnd_append_cons hblank]
      simp
    have hname : ∀ d ∈ p.name, (d != ':') = true := by
      intro d hd
      refine bne_iff_ne.mpr ?_
      rintro rfl
      exact absurd (p.isVariable.lower _ hd) (by decide)
    rw [hfront, hpiece, parameterProblems, if_pos (by simp), List.dropWhile_append_of_pos hname]
    simp [trim_space_cons, capitalised_trim hc]
  · have hmem : ':' ∈ p.type := mem_of_mem_cut (List.mem_of_mem_tail hback) ((trim_isInfix back).subset hcolon)
    exact absurd hmem (p.genericText.not_mem rfl)

theorem annotated_text_iff : Annotated p.text ↔ ',' ∉ p.type := by
  constructor
  · intro h hcomma
    obtain ⟨piece, hpiece, hbracket⟩ := exists_piece p.genericText hcomma
    have hkept : ']' ∈ trim piece := (mem_trim_iff (by decide)).mpr hbracket
    have hfilled : trim piece ∈ filledPieces p.text := by
      refine List.mem_filter.mpr ⟨?_, by simpa using List.ne_nil_of_mem hkept⟩
      rw [commaPieces, p.cut_text]
      exact List.mem_map_of_mem (List.mem_cons_of_mem _ hpiece)
    have hcolon := (trim_isInfix piece).subset (h _ hfilled)
    exact p.genericText.not_mem rfl (mem_of_mem_cut (List.mem_of_mem_tail hpiece) hcolon)
  · intro hcomma piece hpiece
    rcases filledPieces_text p hpiece with rfl | ⟨back, hback, -⟩
    · refine (mem_trim_iff (by decide)).mpr ?_
      simp
    · rw [cut_of_not_mem hcomma] at hback
      cases hback

end Parameters

/-- The parameters of a function, as they are written. A method has `self` in front of them. -/
def parameterTexts (takesSelf : Bool) (ps : List Parameter) : List (List Char) :=
  (if takesSelf then ["self".toList] else []) ++ ps.map Parameter.text

section Lists

variable {takesSelf : Bool} {ps : List Parameter}

theorem filledPieces_self : filledPieces "self".toList = ["self".toList] := rfl

theorem not_annotated_self : ¬Annotated "self".toList := by
  intro h
  rw [Annotated, filledPieces_self] at h
  exact absurd (h _ (List.mem_singleton_self _)) (by decide)

theorem mem_parameterTexts {text : List Char} (h : text ∈ parameterTexts takesSelf ps) :
    (takesSelf = true ∧ text = "self".toList) ∨ ∃ p ∈ ps, text = p.text := by
  rcases List.mem_append.mp h with h | h
  · cases takesSelf with
    | false => cases h
    | true => exact Or.inl ⟨rfl, List.mem_singleton.mp h⟩
  · obtain ⟨p, hp, rfl⟩ := List.mem_map.mp h
    exact Or.inr ⟨p, hp, rfl⟩

theorem annotated_parameters_iff :
    Annotated (listed (parameterTexts takesSelf ps)) ↔ takesSelf = false ∧ ∀ p ∈ ps, ',' ∉ p.type := by
  rw [annotated_listed_iff]
  constructor
  · intro h
    refine ⟨?_, fun p hp => (annotated_text_iff p).mp (h _ (List.mem_append_right _ (List.mem_map_of_mem hp)))⟩
    cases takesSelf with
    | false => rfl
    | true => exact absurd (h _ (List.mem_cons_self ..)) not_annotated_self
  · rintro ⟨rfl, hps⟩ text htext
    rcases mem_parameterTexts htext with ⟨htrue, -⟩ | ⟨p, hp, rfl⟩
    · cases htrue
    · exact (annotated_text_iff p).mpr (hps p hp)

theorem signatureProblems_parameters_eq_nil_iff :
    signatureProblems (listed (parameterTexts takesSelf ps)) = [] ↔
      Annotated (listed (parameterTexts takesSelf ps)) := by
  have hpieces : signatureProblems (listed (parameterTexts takesSelf ps)) =
      (filledPieces (listed (parameterTexts takesSelf ps))).flatMap parameterProblems := rfl
  rw [hpieces, List.flatMap_eq_nil_iff]
  refine forall₂_congr fun piece hpiece => ?_
  constructor
  · intro h
    by_contra hcolon
    rw [parameterProblems, if_neg (by simpa using hcolon)] at h
    cases h
  · intro hcolon
    rw [filledPieces_listed] at hpiece
    obtain ⟨text, htext, hpiece⟩ := List.mem_flatMap.mp hpiece
    rcases mem_parameterTexts htext with ⟨-, rfl⟩ | ⟨p, -, rfl⟩
    · rw [filledPieces_self] at hpiece
      obtain rfl := List.mem_singleton.mp hpiece
      exact absurd hcolon (by decide)
    · exact parameterProblems_of_mem p hpiece hcolon

end Lists

/-! ### Lines with one list of parameters -/

/-- The line has one pair of parentheses, with `inner` between them. -/
structure OneList (line inner : List Char) : Prop where
  exists_eq : ∃ front behind, line = front ++ '(' :: (inner ++ ')' :: behind) ∧ '(' ∉ front ∧ '(' ∉ behind
  no_parenthesis : '(' ∉ inner ∧ ')' ∉ inner

section OneList

variable {line inner : List Char}

theorem OneList.value_first? (h : OneList line inner) :
    (first? (between '(' ')') line).map (·.value) = some inner := by
  obtain ⟨⟨front, behind, rfl, hfront, -⟩, -, hclose⟩ := h
  rw [map_value_first?, found_append_of_none]
  · exact head?_found_of_read (between_eq_some.mpr ⟨hclose, rfl⟩)
  · intro upper c lower hfront'
    refine bind_eq_none ?_
    have hc : c ≠ '(' := by
      rintro rfl
      exact hfront (hfront' ▸ List.mem_append_right _ (List.mem_cons_self ..))
    simp [one, hc]

/-- Whatever a quantifier is found to bind stands between the parentheses. -/
theorem OneList.eq_of_found (h : OneList line inner) {quantifier : String} {x : List Char}
    (hx : x ∈ found (atWordStart (binders quantifier)) line) : x = inner := by
  obtain ⟨⟨front, behind, rfl, hfront, hbehind⟩, hopen, hclose⟩ := h
  obtain ⟨upper, rest, left, hline, -, -, hread⟩ := mem_found_iff.mp hx
  obtain ⟨⟨⟨⟩, mid⟩, hliteral, hread⟩ := Option.bind_eq_some_iff.mp (atWordStart_eq_some hread)
  obtain ⟨gap, -, hgap⟩ := exists_blanks mid
  have hbetween : between '(' ')' (mid.dropWhile isBlank) = some (x, left) := hread
  obtain ⟨hx, hmid⟩ := between_eq_some.mp hbetween
  rw [literal_eq_some.mp hliteral, hgap, hmid] at hline
  have hrest : '(' ∉ inner ++ ')' :: behind := by simp [hopen, hbehind]
  rw [← List.append_assoc, ← List.append_assoc, List.append_cons_inj_of_notMem hfront hrest] at hline
  obtain ⟨-, -, hsame⟩ := hline
  have hboth := (between_eq_some (o := '(')).mpr ⟨hclose, congrArg ('(' :: ·) hsame.symm⟩
  rw [between_eq_some.mpr ⟨hx, rfl⟩] at hboth
  cases hboth
  rfl

theorem OneList.quantifierProblems_eq_nil (h : OneList line inner) (hinner : Annotated inner) (quantifier : String) :
    quantifierProblems quantifier line = [] := by
  refine List.flatMap_eq_nil_iff.mpr fun x hx => ?_
  rw [h.eq_of_found hx]
  exact binderProblems_eq_nil_iff.mpr hinner

end OneList

/-- The keywords that the rules look for at the beginning of a line, but for that of a definition. -/
def ruledKeywords : List String :=
  ["import", "from", "numerals", "inductive", "structure", "typeclass", "attributes", "instance", "let", "theorem"]

/-- Where none of the other keywords begins a line, the rules on definitions and quantifiers are left. -/
theorem lineErrors_eq {line : Line} (hflush : Flush line)
    (hkeywords : ruledKeywords.all (fun keyword => (dropLead? keyword.toList line).isNone) = true) :
    lineErrors line =
      definitionProblems line ++ quantifierProblems "forall" line ++ quantifierProblems "exists" line := by
  have hleading {keyword : String} (hmem : keyword ∈ ruledKeywords) : leading keyword line = none := by
    have hnone : dropLead? keyword.toList line = none := by
      simpa using List.all_eq_true.mp hkeywords keyword hmem
    have hnil : allBlank [] = true := rfl
    have hblanks : blanks line = some ((), line) := blanks_gap hnil hflush
    rw [leading, bind_eq_of_some hblanks]
    exact bind_eq_none (by simp [literal, hnone])
  have hquiet {α : Type} {r : Reader α} {good : α → Bool} {p : Problem} (hr : r line = none) :
      complainUnless r good p line = [] := by
    rw [complainUnless, read?, hr]
    rfl
  have hmodule : moduleProblems line = [] := by
    have himport : importModule line = none := bind_eq_none (hleading (by decide))
    have hsource : sourceModule line = none := bind_eq_none (hleading (by decide))
    rw [moduleProblems, hquiet himport, hquiet hsource]
    rfl
  have hinstance : instanceNames line = none := bind_eq_none (bind_eq_none (hleading (by decide)))
  have htypeName : typeNameProblems line = [] := by
    have hnamed {keyword : String} (hmem : keyword ∈ ruledKeywords) : namedAfter keyword line = none :=
      bind_eq_none (hleading hmem)
    rw [typeNameProblems, hquiet (hnamed (by decide)), hquiet hinstance, hquiet hinstance]
    simp only [List.nil_append, List.append_nil, List.flatMap_eq_nil_iff]
    intro keyword hkeyword
    refine hquiet (hnamed ?_)
    have hsub : ["inductive", "structure", "typeclass", "attributes"] ⊆ ruledKeywords := by decide
    exact hsub hkeyword
  have hbinding : bindingProblems line = [] := by
    rw [bindingProblems, read?, hleading (by decide)]
    rfl
  have htheorem : theoremProblems line = [] := by
    rw [theoremProblems, read?, theoremParameters, bind_eq_none (hleading (by decide))]
    rfl
  simp only [lineErrors, hmodule, htypeName, hbinding, htheorem, List.nil_append, List.append_nil]

/-! ### Functions and quantifiers -/

/-- A body on one line, without brackets and comments. -/
structure PlainBody (body : Line) : Prop where
  unbroken : Unbroken body
  no_bracket : ∀ c ∈ body, closerOf? c = none ∧ isCloser c = false
  uncommented : occursIn ['/', '/'] body = false ∧ occursIn ['/', '*'] body = false

/-- A text that opens and closes nothing around a list of parameters. -/
structure Sober (cs : List Char) : Prop where
  balanced : Balanced cs
  chars : ∀ c ∈ cs, isLineBreak c = false ∧ c ≠ '/' ∧ c ≠ '(' ∧ c ≠ ')'

theorem Sober.append {a b : List Char} (ha : Sober a) (hb : Sober b) : Sober (a ++ b) :=
  ⟨ha.balanced.append hb.balanced, List.forall_mem_append.mpr ⟨ha.chars, hb.chars⟩⟩

theorem isLineBreak_eq_false {c : Char} (h : isBlank c = false) : isLineBreak c = false := by
  simp only [isBlank, isLineBreak, Bool.or_eq_false_iff, Bool.and_eq_false_iff, decide_eq_false_iff_not,
    beq_eq_false_iff_ne] at h ⊢
  omega

theorem sober_of_isParameterChar {cs : List Char} (h : ∀ c ∈ cs, isParameterChar c = true) (hline : Unbroken cs)
    (hbalanced : Balanced cs) : Sober cs := by
  refine ⟨hbalanced, fun c hc => ⟨hline c hc, ?_⟩⟩
  have hne {d : Char} (hd : isParameterChar d = false) : c ≠ d := by
    rintro rfl
    rw [h c hc] at hd
    cases hd
  exact ⟨hne rfl, hne rfl, hne rfl⟩

theorem sober_of_isName {cs : List Char} (h : IsName cs) : Sober cs := by
  refine sober_of_isParameterChar (fun c hc => ?_) (fun c hc => ?_) (balanced_of_isName h)
  · simp [isParameterChar, isFieldTypeChar, h c hc]
  · exact isLineBreak_eq_false (isBlank_eq_false_of_isNameChar (h c hc))

theorem sober_of_genericText {t : List Char} (h : GenericText t) (hline : Unbroken t) : Sober t :=
  sober_of_isParameterChar (fun c hc => by simp [isParameterChar, h.chars c hc]) hline (balanced_of_genericText h)

theorem sober_of_isVariable {w : List Char} (h : IsVariable w) : Sober w :=
  sober_of_isName fun c hc => isNameChar_of_isLowerChar (h.lower c hc)

theorem sober_listed {texts : List (List Char)} (h : ∀ text ∈ texts, Sober text) : Sober (listed texts) := by
  have hmark : Sober ", ".toList := ⟨fun _ => rfl, by simp [isLineBreak]⟩
  refine ⟨balanced_intercalate hmark.balanced fun text htext => (h text htext).balanced, fun c hc => ?_⟩
  rcases mem_listed hc with rfl | rfl | ⟨text, htext, hc⟩
  · exact hmark.chars ',' (by simp)
  · exact hmark.chars ' ' (by simp)
  · exact (h text htext).chars c hc

theorem sober_parameters {takesSelf : Bool} {ps : List Parameter} (hps : ∀ p ∈ ps, Unbroken p.type) :
    Sober (listed (parameterTexts takesSelf ps)) := by
  refine sober_listed fun text htext => ?_
  rcases mem_parameterTexts htext with ⟨-, rfl⟩ | ⟨p, hp, rfl⟩
  · exact sober_of_isName (List.all_eq_true.mp rfl)
  · have hmark : Sober ": ".toList := ⟨fun _ => rfl, by simp [isLineBreak]⟩
    exact (sober_of_isVariable p.isVariable).append (hmark.append (sober_of_genericText p.genericText (hps p hp)))

/-- A line with a list of parameters behind `front`, and a body in braces behind `middle`. -/
def headedLine (front : List Char) (inner middle body : List Char) : Line :=
  front ++ '(' :: (inner ++ ')' :: (middle ++ '{' :: ' ' :: (body ++ [' ', '}'])))

section Headed

variable {front inner middle body : List Char} (hfront : Sober front) (hinner : Sober inner) (hmiddle : Sober middle)
  (hbody : PlainBody body)
include hfront hinner hmiddle hbody

theorem oneList_headedLine : OneList (headedLine front inner middle body) inner := by
  have hnone {cs : List Char} (h : Sober cs) {c : Char} (hc : c = '(' ∨ c = ')') : c ∉ cs := by
    intro hmem
    rcases hc with rfl | rfl
    · exact (h.chars _ hmem).2.2.1 rfl
    · exact (h.chars _ hmem).2.2.2 rfl
  have hbody' : '(' ∉ body := fun hmem => absurd (hbody.no_bracket _ hmem).1 (by decide)
  refine ⟨⟨front, _, rfl, hnone hfront (Or.inl rfl), ?_⟩, hnone hinner (Or.inl rfl), hnone hinner (Or.inr rfl)⟩
  simp [hnone hmiddle (Or.inl rfl), hbody']

theorem isValid_headedLine_iff : (report (String.ofList (headedLine front inner middle body))).isValid = true ↔
    lineErrors (headedLine front inner middle body) = [] := by
  refine isValid_report_line_iff ?_ ?_ ?_
  · -- no comment is opened, since a space parts the body from what stands behind it
    have hnone {cs : List Char} (h : Sober cs) : '/' ∉ cs := fun hmem => (h.chars _ hmem).2.1 rfl
    have hsplit : headedLine front inner middle body =
        (front ++ '(' :: (inner ++ ')' :: (middle ++ ['{', ' ']))) ++ (body ++ [' ', '}']) := by
      simp [headedLine]
    have hslash : '/' ∉ front ++ '(' :: (inner ++ ')' :: (middle ++ ['{', ' '])) := by
      simp [hnone hfront, hnone hinner, hnone hmiddle]
    have hclosed {d : Char} (hd : d ≠ ' ') (h : occursIn ['/', d] body = false) :
        occursIn ['/', d] (headedLine front inner middle body) = false := by
      have hspace : ∀ c, [' ', '}'].head? = some c → c ∉ ['/', d] := by
        rintro c ⟨⟩
        simp [hd.symm]
      rw [hsplit, occursIn_append_of_not_mem hslash, occursIn_append (List.cons_ne_nil _ _) hspace, h]
      rfl
    exact mask_of_uncommented (hclosed (by decide) hbody.uncommented.1) (hclosed (by decide) hbody.uncommented.2)
  · intro c hc
    simp only [headedLine, List.mem_append, List.mem_cons, List.not_mem_nil, or_false] at hc
    rcases hc with hc | rfl | hc | rfl | hc | rfl | rfl | hc | rfl | rfl
    · exact (hfront.chars c hc).1
    · rfl
    · exact (hinner.chars c hc).1
    · rfl
    · exact (hmiddle.chars c hc).1
    · rfl
    · rfl
    · exact hbody.unbroken c hc
    · rfl
    · rfl
  · -- the brackets match: a pair around the parameters, and a pair around the body
    have hsplit : headedLine front inner middle body =
        front ++ ('(' :: (inner ++ [')']) ++ (middle ++ '{' :: (([' '] ++ (body ++ [' '])) ++ ['}']))) := by
      simp [headedLine]
    have hspace : Balanced [' '] := fun _ => rfl
    have hinside := hspace.append ((balanced_of_no_bracket hbody.no_bracket).append hspace)
    rw [hsplit]
    exact hfront.balanced.append
      ((hinner.balanced.enclose rfl).append (hmiddle.balanced.append (hinside.enclose rfl)))

end Headed

/-- The line of a function. -/
def definitionLine (f : List Char) (takesSelf : Bool) (ps : List Parameter) (result body : List Char) : Line :=
  headedLine ("define ".toList ++ f) (listed (parameterTexts takesSelf ps)) (" -> ".toList ++ (result ++ [' '])) body

/-- The line of a quantifier. -/
def quantifierLine (quantifier : String) (takesSelf : Bool) (ps : List Parameter) (body : List Char) : Line :=
  headedLine quantifier.toList (listed (parameterTexts takesSelf ps)) [' '] body

section Definitions

variable {f inner result body : List Char}

theorem read?_defined (hf : IsVariable f) (rest : List Char) :
    defined.read? ("define ".toList ++ f ++ '(' :: rest) = some f := by
  have hparted : ∀ c ∈ ('(' :: rest).head?, isNameChar c = false := by
    rintro c ⟨⟩
    rfl
  have hleading : leading "define" ("define ".toList ++ f ++ '(' :: rest) = some ((), f ++ '(' :: rest) := by
    obtain ⟨c, run, rfl, hc, -⟩ := hf.exists_cons
    have hspace : allBlank [' '] = true := rfl
    exact someBlanks_append (List.cons_ne_nil _ _) hspace
      (isBlank_eq_false_of_isNameChar (isNameChar_of_isLowerStart hc)) (run ++ '(' :: rest)
  rw [read?, defined, bind_eq_of_some hleading, word_append hf.nameFrom hparted]
  rfl

/-- A result type with a capital is as it should be. -/
theorem resultProblems_of_arrow {front : List Char} (hfront : ')' ∉ front) (hresult : GenericText result)
    (rest : List Char) : resultProblems (front ++ ')' :: (" -> ".toList ++ (result ++ rest))) = [] := by
  obtain ⟨c, run, rfl, hc⟩ := hresult.exists_cons
  have hblank : isBlank c = false := isBlank_eq_false_of_isNameChar (isNameChar_of_isUpper hc)
  let p : Char → Bool := fun c => isNameChar c || c == '[' || c == ']' || c == ',' || c == ' '
  have hread : resultType (')' :: (" -> ".toList ++ (c :: run ++ rest))) =
      some (trim (c :: (run ++ rest).takeWhile p), (run ++ rest).dropWhile p) := by
    have hgap : span isBlank (' ' :: (c :: run ++ rest)) = some ([' '], c :: run ++ rest) := by
      have hspace : isBlank ' ' = true := rfl
      simp [span, hspace, hblank]
    have hspan : span p (c :: run ++ rest) = some (c :: (run ++ rest).takeWhile p, (run ++ rest).dropWhile p) := by
      simp [span, p, isNameChar_of_isUpper hc]
    have hclose : literal ")" (')' :: (" -> ".toList ++ (c :: run ++ rest))) =
        some ((), " -> ".toList ++ (c :: run ++ rest)) := rfl
    have hspace : blanks (" -> ".toList ++ (c :: run ++ rest)) = some ((), "-> ".toList ++ (c :: run ++ rest)) := rfl
    have harrow : literal "->" ("-> ".toList ++ (c :: run ++ rest)) = some ((), ' ' :: (c :: run ++ rest)) := rfl
    rw [resultType, bind_eq_of_some hclose, bind_eq_of_some hspace, bind_eq_of_some harrow, bind_eq_of_some hgap,
      bind_eq_of_some hspan]
    rfl
  have hvalue : (first? resultType (front ++ ')' :: (" -> ".toList ++ (c :: run ++ rest)))).map (·.value) =
      some (trim (c :: (run ++ rest).takeWhile p)) := by
    rw [map_value_first?, found_append_of_none]
    · exact head?_found_of_read hread
    · intro upper d lower hupper
      have hd : ')' ≠ d := by
        rintro rfl
        exact hfront (hupper ▸ List.mem_append_right _ (List.mem_cons_self ..))
      refine bind_eq_none ?_
      simp [literal, dropLead?, hd]
  rw [resultProblems, hvalue]
  simp [capitalised_trim hc]

end Definitions

theorem binders_append {quantifier : String} {inner : List Char} (h : ')' ∉ inner) (behind : List Char) :
    binders quantifier (quantifier.toList ++ '(' :: (inner ++ ')' :: behind)) = some (inner, behind) := by
  have hliteral : literal quantifier (quantifier.toList ++ '(' :: (inner ++ ')' :: behind)) =
      some ((), '(' :: (inner ++ ')' :: behind)) := literal_eq_some.mpr rfl
  have hblanks : blanks ('(' :: (inner ++ ')' :: behind)) = some ((), '(' :: (inner ++ ')' :: behind)) := rfl
  rw [binders, bind_eq_of_some hliteral, bind_eq_of_some hblanks]
  exact between_eq_some.mpr ⟨h, rfl⟩

section Validity

variable {f result body : List Char} {takesSelf : Bool} {ps : List Parameter} (hps : ∀ p ∈ ps, Unbroken p.type)
  (hbody : PlainBody body)
include hps hbody

theorem isValid_definitionLine_iff (hf : IsVariable f) (hresult : GenericText result) (hline : Unbroken result) :
    (report (String.ofList (definitionLine f takesSelf ps result body))).isValid = true ↔
      Annotated (listed (parameterTexts takesSelf ps)) := by
  have hinner : Sober (listed (parameterTexts takesSelf ps)) := sober_parameters hps
  have hfront : Sober ("define ".toList ++ f) :=
    Sober.append ⟨fun _ => rfl, by simp [isLineBreak]⟩ (sober_of_isVariable hf)
  have hmiddle : Sober (" -> ".toList ++ (result ++ [' '])) :=
    Sober.append ⟨fun _ => rfl, by simp [isLineBreak]⟩
      ((sober_of_genericText hresult hline).append ⟨fun _ => rfl, by simp [isLineBreak]⟩)
  have hone : OneList (definitionLine f takesSelf ps result body) (listed (parameterTexts takesSelf ps)) :=
    oneList_headedLine hfront hinner hmiddle hbody
  have hresult' : resultProblems (definitionLine f takesSelf ps result body) = [] := by
    have hclose : ')' ∉ "define ".toList ++ f ++ '(' :: listed (parameterTexts takesSelf ps) := by
      intro hmem
      rcases List.mem_append.mp hmem with hmem | hmem
      · exact (hfront.chars _ hmem).2.2.2 rfl
      · rcases List.mem_cons.mp hmem with hmem | hmem
        · cases hmem
        · exact hone.no_parenthesis.2 hmem
    have hsplit : definitionLine f takesSelf ps result body =
        ("define ".toList ++ f ++ '(' :: listed (parameterTexts takesSelf ps)) ++
          ')' :: (" -> ".toList ++ (result ++ ([' ', '{', ' '] ++ (body ++ [' ', '}'])))) := by
      simp [definitionLine, headedLine]
    rw [hsplit]
    exact resultProblems_of_arrow hclose hresult _
  -- the first parentheses of the line are those of the parameters
  have hdefinition : definitionProblems (definitionLine f takesSelf ps result body) =
      signatureProblems (listed (parameterTexts takesSelf ps)) := by
    have hfirst := congrArg (Option.map signatureProblems) hone.value_first?
    rw [Option.map_map] at hfirst
    have hread : defined.read? (definitionLine f takesSelf ps result body) = some f := read?_defined hf _
    rw [definitionProblems, hread]
    simp only [hresult', List.append_nil]
    exact congrArg (Option.getD · []) hfirst
  have herrors : lineErrors (definitionLine f takesSelf ps result body) =
      signatureProblems (listed (parameterTexts takesSelf ps)) ++
        quantifierProblems "forall" (definitionLine f takesSelf ps result body) ++
          quantifierProblems "exists" (definitionLine f takesSelf ps result body) := by
    rw [← hdefinition]
    exact lineErrors_eq (by rintro c ⟨⟩; rfl) rfl
  rw [definitionLine, isValid_headedLine_iff hfront hinner hmiddle hbody, ← definitionLine, herrors,
    List.append_eq_nil_iff, List.append_eq_nil_iff, signatureProblems_parameters_eq_nil_iff]
  exact ⟨fun h => h.1.1, fun h => ⟨⟨h, hone.quantifierProblems_eq_nil h _⟩, hone.quantifierProblems_eq_nil h _⟩⟩

theorem isValid_quantifierLine_iff {quantifier : String} (hquantifier : quantifier ∈ ["forall", "exists"]) :
    (report (String.ofList (quantifierLine quantifier takesSelf ps body))).isValid = true ↔
      Annotated (listed (parameterTexts takesSelf ps)) := by
  have hinner : Sober (listed (parameterTexts takesSelf ps)) := sober_parameters hps
  have hname : IsName quantifier.toList := by
    have hall : ∀ q ∈ ["forall", "exists"], q.toList.all isNameChar = true := by decide
    exact List.all_eq_true.mp (hall quantifier hquantifier)
  have hfront : Sober quantifier.toList := sober_of_isName hname
  have hmiddle : Sober [' '] := ⟨fun _ => rfl, by simp [isLineBreak]⟩
  have hone : OneList (quantifierLine quantifier takesSelf ps body) (listed (parameterTexts takesSelf ps)) :=
    oneList_headedLine hfront hinner hmiddle hbody
  have hcases : quantifier = "forall" ∨ quantifier = "exists" := by simpa using hquantifier
  have herrors : lineErrors (quantifierLine quantifier takesSelf ps body) =
      quantifierProblems "forall" (quantifierLine quantifier takesSelf ps body) ++
        quantifierProblems "exists" (quantifierLine quantifier takesSelf ps body) := by
    have hdefinition : definitionProblems (quantifierLine quantifier takesSelf ps body) = [] := by
      rcases hcases with rfl | rfl <;> rfl
    rw [lineErrors_eq, hdefinition, List.nil_append]
    · rcases hcases with rfl | rfl <;> rintro c ⟨⟩ <;> rfl
    · rcases hcases with rfl | rfl <;> rfl
  -- a list that goes without types is found out by the quantifier in front of it
  have hfound : listed (parameterTexts takesSelf ps) ∈
      found (atWordStart (binders quantifier)) (quantifierLine quantifier takesSelf ps body) :=
    mem_found_iff.mpr ⟨[], _, [' '] ++ '{' :: ' ' :: (body ++ [' ', '}']), rfl, by simp, Free.nil,
      binders_append hone.no_parenthesis.2 _⟩
  rw [quantifierLine, isValid_headedLine_iff hfront hinner hmiddle hbody, ← quantifierLine, herrors,
    List.append_eq_nil_iff]
  constructor
  · rintro ⟨hforall, hexists⟩
    have hboth : quantifierProblems quantifier (quantifierLine quantifier takesSelf ps body) = [] := by
      rcases hcases with rfl | rfl
      · exact hforall
      · exact hexists
    exact binderProblems_eq_nil_iff.mp (List.flatMap_eq_nil_iff.mp hboth _ hfound)
  · intro h
    exact ⟨hone.quantifierProblems_eq_nil h _, hone.quantifierProblems_eq_nil h _⟩

end Validity

/-- The line of a function, or of a quantifier, is without mistakes exactly if no parameter goes without a type and no
    type of a parameter has a comma. -/
theorem headings_valid_iff (f : List Char) (takesSelf : Bool) (ps : List Parameter) (result body : List Char)
    (hf : IsVariable f) (hps : ∀ p ∈ ps, Unbroken p.type) (hresult : GenericText result) (hline : Unbroken result)
    (hbody : PlainBody body) :
    ((report (String.ofList (definitionLine f takesSelf ps result body))).isValid = true ↔
      takesSelf = false ∧ ∀ p ∈ ps, ',' ∉ p.type) ∧
    ∀ quantifier ∈ ["forall", "exists"],
      ((report (String.ofList (quantifierLine quantifier takesSelf ps body))).isValid = true ↔
        takesSelf = false ∧ ∀ p ∈ ps, ',' ∉ p.type) := by
  refine ⟨?_, fun quantifier hquantifier => ?_⟩
  · rw [isValid_definitionLine_iff hps hbody hf hresult hline, annotated_parameters_iff]
  · rw [isValid_quantifierLine_iff hps hbody hquantifier, annotated_parameters_iff]

/-- A function of a pair is faulted, and so is a list with `self` in it, but not a function whose result is a pair. -/
theorem headings_valid_iff_pair :
    (report "define fst(p: Pair[T, U]) -> T \x7b p \x7d").isValid = false ∧
      (report "forall(self) \x7b p \x7d").isValid = false ∧
      (report "define twice() -> Pair[T, U] \x7b p \x7d").isValid = true := by
  have hbody : PlainBody ['p'] := ⟨by decide, by simp [closerOf?, isCloser], rfl, rfl⟩
  have hname : GenericText ['T'] := .name ⟨rfl, List.all_eq_true.mp rfl⟩
  obtain ⟨hfst, -⟩ := headings_valid_iff "fst".toList false [.pair] ['T'] ['p'] ⟨rfl, List.all_eq_true.mp rfl⟩
    (List.forall_mem_singleton.mpr (by decide)) hname (by decide) hbody
  obtain ⟨-, hself⟩ := headings_valid_iff "fst".toList true [] ['T'] ['p'] ⟨rfl, List.all_eq_true.mp rfl⟩ (by simp)
    hname (by decide) hbody
  obtain ⟨htwice, -⟩ := headings_valid_iff "twice".toList false [] Parameter.pair.type ['p']
    ⟨rfl, List.all_eq_true.mp rfl⟩ (by simp) Parameter.pair.genericText (by decide) hbody
  refine ⟨Bool.eq_false_iff.mpr fun h => ?_, Bool.eq_false_iff.mpr fun h => ?_, htwice.mpr ⟨rfl, by simp⟩⟩
  · exact (hfst.mp h).2 _ (List.mem_singleton_self _) (by decide)
  · cases ((hself "forall" (by simp)).mp h).1

end AcornCatalog.Check
