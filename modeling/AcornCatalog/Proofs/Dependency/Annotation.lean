import AcornCatalog.Proofs.Declaration.Parameter
import AcornCatalog.Proofs.OrderedMap
import AcornCatalog.Proofs.Text.Scan
import Mathlib.Data.List.Nodup

/-! What annotations say of types with further types in brackets. A signature is searched for types that end before the
first comma or closing mark, and a quantifier is cut at its commas, so both give every variable of a list a type, and no
other name, but a signature gives it the whole type only if that has no brackets, and a quantifier only if it has no
comma. -/

namespace AcornCatalog.Dependency

open Text Reader Header

/-! ### Texts without their blanks -/

/-- A text without its blanks. -/
def compact (cs : List Char) : List Char := cs.filter (!isBlank ·)

theorem compact_of_allBlank {cs : List Char} (h : allBlank cs = true) : compact cs = [] :=
  List.filter_eq_nil_iff.mpr fun c hc => by simp [List.all_eq_true.mp h c hc]

theorem compact_trim (cs : List Char) : compact (trim cs) = compact cs := by
  obtain ⟨front, back, hfront, hback, hcs⟩ := exists_blanks_trim cs
  calc compact (trim cs)
    _ = compact front ++ (compact (trim cs) ++ compact back) := by
      rw [compact_of_allBlank hfront, compact_of_allBlank hback, List.append_nil, List.nil_append]
    _ = compact (front ++ (trim cs ++ back)) := by simp only [compact, List.filter_append]
    _ = compact cs := congrArg compact hcs.symm

/-- Of a text up to some mark, the blanks apart, all is there only if there is no mark. -/
theorem compact_takeWhile_eq_iff {p : Char → Bool} (hp : ∀ c, p c = false → isBlank c = false) (cs : List Char) :
    compact (cs.takeWhile p) = compact cs ↔ ∀ c ∈ cs, p c = true := by
  have hsplit : compact cs = compact (cs.takeWhile p) ++ compact (cs.dropWhile p) := by
    rw [compact, compact, compact, ← List.filter_append, List.takeWhile_append_dropWhile]
  rw [hsplit, List.self_eq_append_right, ← List.dropWhile_eq_nil_iff]
  constructor
  · intro hnil
    cases hrest : cs.dropWhile p with
    | nil => rfl
    | cons c rest =>
      have hc : p c = false := by
        have hhead := List.head?_dropWhile_not p cs
        rw [hrest] at hhead
        simpa using hhead
      have hmem : c ∈ compact (cs.dropWhile p) := List.mem_filter.mpr ⟨hrest ▸ List.mem_cons_self .., by simp [hp c hc]⟩
      rw [hnil] at hmem
      cases hmem
  · intro hnil
    rw [hnil]
    rfl

/-! ### Signatures -/

/-- Where no colon comes before a mark that is neither a blank nor in a variable, no annotation begins. -/
theorem annotation_of_not_mem {cs rest : List Char} {d : Char} (hcs : ':' ∉ cs) (hd : isLowerChar d = false)
    (hblank : isBlank d = false) (hcolon : d ≠ ':') : annotation (cs ++ d :: rest) = none := by
  cases hread : annotation (cs ++ d :: rest) with
  | none => rfl
  | some read =>
    obtain ⟨⟨w, behind⟩, hword, hread⟩ := Option.bind_eq_some_iff.mp hread
    obtain ⟨⟨⟨⟩, behind'⟩, hliteral, -⟩ := Option.bind_eq_some_iff.mp hread
    obtain ⟨hw, -, htext⟩ := lowerWord_eq_some_iff.mp hword
    obtain ⟨gap, hgap, hbehind⟩ := exists_blanks behind
    rw [hbehind, literal_eq_some.mp hliteral, ← List.append_assoc] at htext
    -- the mark would stand in the variable, in the gap behind it, or in place of the colon
    have hfront : d ∉ w ++ gap := by
      intro hmem
      rcases List.mem_append.mp hmem with hmem | hmem
      · rw [hw.lower d hmem] at hd
        cases hd
      · rw [List.all_eq_true.mp hgap d hmem] at hblank
        cases hblank
    have hlength := length_le_of_not_mem cs htext hfront
    rcases List.append_eq_append_iff.mp htext with ⟨more, hmore, hrest⟩ | ⟨more, rfl, hrest⟩
    · cases more with
      | nil => exact absurd (List.cons.inj hrest).1 hcolon
      | cons c more =>
        rw [hmore, List.length_append, List.length_cons] at hlength
        omega
    · cases more with
      | nil => exact absurd (List.cons.inj hrest).1.symm hcolon
      | cons c more =>
        obtain rfl : ':' = c := (List.cons.inj hrest).1
        exact absurd (List.mem_append_right _ (List.mem_cons_self ..)) hcs

theorem found_annotation_pass {front rest : List Char} {d : Char} (hfront : ':' ∉ front) (hd : isLowerChar d = false)
    (hblank : isBlank d = false) (hcolon : d ≠ ':') :
    found (anywhere annotation) (front ++ d :: rest) = found (anywhere annotation) rest := by
  rw [List.append_cons]
  refine found_append_of_none fun upper c lower heq => ?_
  -- what is left of the text in front of the mark has no colon either
  rcases List.eq_nil_or_concat (c :: lower) with hnil | ⟨more, e, hmore⟩
  · cases hnil
  · rw [hmore, List.concat_eq_append, ← List.append_assoc] at heq
    obtain ⟨rfl, rfl⟩ := List.append_singleton_inj.mp heq
    rw [← List.cons_append, hmore, List.concat_eq_append, List.append_assoc]
    exact annotation_of_not_mem (fun hmem => hfront (List.mem_append_right _ hmem)) hd hblank hcolon

/-- A type up to its first comma or closing bracket. -/
def typeFront (type : List Char) : List Char := type.takeWhile fun c => c != ',' && c != ']'

/-- A type from its first comma or closing bracket on. -/
def typeBack (type : List Char) : List Char := type.dropWhile fun c => c != ',' && c != ']'

theorem typeFront_append_typeBack (type : List Char) : typeFront type ++ typeBack type = type :=
  List.takeWhile_append_dropWhile

section Parameters

variable {d : Char} (hd : d = ',' ∨ d = ')')
include hd

theorem exists_mark (type rest : List Char) :
    ∃ e tail, typeBack type ++ d :: rest = e :: tail ∧ (e = ',' ∨ e = ')' ∨ e = ']') := by
  cases hback : typeBack type with
  | nil => exact ⟨d, rest, rfl, hd.imp_right Or.inl⟩
  | cons e tail =>
    have hhead := List.head?_dropWhile_not (fun c => c != ',' && c != ']') type
    rw [← typeBack, hback] at hhead
    have he : e ≠ ',' → e = ']' := by simpa using hhead
    by_cases hcomma : e = ','
    · exact ⟨e, _, rfl, Or.inl hcomma⟩
    · exact ⟨e, _, rfl, Or.inr (Or.inr (he hcomma))⟩

/-- A parameter is read as a variable and its type up to the first mark. -/
theorem annotation_parameter (p : Parameter) (rest : List Char) :
    annotation (p.name ++ (": ".toList ++ typeFront p.type) ++ (typeBack p.type ++ d :: rest)) =
      some ((p.name, typeFront p.type), typeBack p.type ++ d :: rest) := by
  obtain ⟨e, tail, hback, he⟩ := exists_mark hd p.type rest
  obtain ⟨c, run, htype, hc⟩ := p.genericText.exists_cons
  have hfront : typeFront p.type = c :: typeFront run := by
    have hcomma : c ≠ ',' := by
      rintro rfl
      cases hc
    have hbracket : c ≠ ']' := by
      rintro rfl
      cases hc
    simp [typeFront, htype, hcomma, hbracket]
  have hrun : ∀ d ∈ typeFront run, isTypeChar d = true := by
    intro d hmem
    have hchar := p.genericText.chars d (htype ▸ List.mem_cons_of_mem _ (List.takeWhile_subset _ hmem))
    have hmark := List.mem_takeWhile_imp hmem
    simp only [isFieldTypeChar, isTypeChar, Bool.or_eq_true, beq_iff_eq, Bool.and_eq_true, bne_iff_ne] at hchar hmark ⊢
    tauto
  have hstop : ∀ d ∈ (e :: tail).head?, isTypeChar d = false := by
    rintro d ⟨⟩
    rcases he with rfl | rfl | rfl <;> rfl
  have hfollowed : followedBy (fun c => c == ',' || c == ')' || c == ']') (e :: tail) = some ((), e :: tail) := by
    rcases he with rfl | rfl | rfl <;> rfl
  have hcapital : isBlank c = false := isBlank_eq_false_of_isNameChar (isNameChar_of_isUpper hc)
  have hword : word Char.isUpper isTypeChar (c :: typeFront run ++ e :: tail) = some (c :: typeFront run, e :: tail) :=
    word_cons_append hc hrun hstop
  have hone : allBlank [' '] = true := rfl
  have hspace : blanks (' ' :: (c :: typeFront run ++ e :: tail)) = some ((), c :: typeFront run ++ e :: tail) :=
    blanks_append hone hcapital _
  have hcolon : literal ":" (": ".toList ++ (c :: typeFront run ++ e :: tail)) =
      some ((), ' ' :: (c :: typeFront run ++ e :: tail)) := rfl
  have hname : lowerWord (p.name ++ (": ".toList ++ (c :: typeFront run ++ e :: tail))) =
      some (p.name, ": ".toList ++ (c :: typeFront run ++ e :: tail)) :=
    lowerWord_eq_some_iff.mpr ⟨p.isVariable, by rintro d ⟨⟩; rfl, rfl⟩
  have hgap : blanks (": ".toList ++ (c :: typeFront run ++ e :: tail)) =
      some ((), ": ".toList ++ (c :: typeFront run ++ e :: tail)) := rfl
  rw [hback, hfront, List.append_assoc, List.append_assoc, annotation, bind_eq_of_some hname, bind_eq_of_some hgap,
    bind_eq_of_some hcolon, bind_eq_of_some hspace, bind_eq_of_some hword, bind_eq_of_some hfollowed]
  rfl

theorem found_annotation_parameter (p : Parameter) (rest : List Char) :
    found (anywhere annotation) (p.text ++ d :: rest) =
      (p.name, typeFront p.type) :: found (anywhere annotation) rest := by
  have htext : p.text ++ d :: rest =
      p.name ++ (": ".toList ++ typeFront p.type) ++ (typeBack p.type ++ d :: rest) := by
    rw [Parameter.text]
    nth_rewrite 1 [← typeFront_append_typeBack p.type]
    simp only [List.append_assoc]
  have hne : p.name ++ (": ".toList ++ typeFront p.type) ≠ [] := by simp
  have hback : ':' ∉ typeBack p.type := fun hmem =>
    p.genericText.not_mem rfl ((List.dropWhile_suffix _).subset hmem)
  rw [htext, found_append_of_read (annotation_parameter hd p rest) hne]
  rcases hd with rfl | rfl <;> rw [found_annotation_pass hback rfl rfl (by decide)]

end Parameters

theorem found_annotation_listed (ps : List Parameter) :
    found (anywhere annotation) (listed (ps.map Parameter.text) ++ [')']) =
      ps.map fun p => (p.name, typeFront p.type) := by
  induction ps with
  | nil => rfl
  | cons p ps ih =>
    cases ps with
    | nil =>
      rw [List.map_singleton, listed, List.intercalate_singleton, found_annotation_parameter (Or.inr rfl)]
      rfl
    | cons q ps =>
      have hspace (cs : List Char) : annotation (' ' :: cs) = none := bind_eq_none (bind_eq_none rfl)
      rw [List.map_cons, List.map_cons, listed_cons_cons, List.append_assoc, List.cons_append,
        found_annotation_parameter (Or.inl rfl), List.cons_append, found_cons_of_none (hspace _), ← List.map_cons, ih]
      rfl

/-! ### Quantifiers -/

theorem quantifier_forall {inner : List Char} (h : ')' ∉ inner) (rest : List Char) :
    quantifier ("forall(".toList ++ (inner ++ ')' :: rest)) = some (inner, rest) :=
  quantifier_eq_some_iff.mpr ⟨"forall", [], Or.inl rfl, rfl, h, rfl⟩

theorem quantifiedVariable?_space (piece : List Char) :
    quantifiedVariable? (' ' :: piece) = quantifiedVariable? piece := by
  rw [quantifiedVariable?, quantifiedVariable?, cut, if_neg (by decide), cut_eq_cons]
  cases htail : (cut ':' piece).tail with
  | nil => rfl
  | cons type more =>
    cases more with
    | nil => simp [consFirst, trim_space_cons]
    | cons => rfl

/-- Of the pieces of a parameter only the first names a variable. -/
theorem filterMap_cut_parameter (p : Parameter) :
    (cut ',' p.text).filterMap quantifiedVariable? =
      [(String.ofList p.name, String.ofList (trim (p.type.takeWhile (· != ','))))] := by
  have hfirst : quantifiedVariable? (p.name ++ (": ".toList ++ p.type.takeWhile (· != ','))) =
      some (String.ofList p.name, String.ofList (trim (p.type.takeWhile (· != ',')))) := by
    have hname : ':' ∉ p.name := fun hmem => absurd (p.isVariable.lower _ hmem) (by decide)
    have htype : ':' ∉ ' ' :: p.type.takeWhile (· != ',') := by
      intro hmem
      rcases List.mem_cons.mp hmem with hspace | hmem
      · cases hspace
      · exact p.genericText.not_mem rfl (List.takeWhile_subset _ hmem)
    have hcut : cut ':' (p.name ++ (": ".toList ++ p.type.takeWhile (· != ','))) =
        [p.name, ' ' :: p.type.takeWhile (· != ',')] :=
      (cut_append_sep hname _).trans (congrArg _ (cut_of_not_mem htype))
    have hspace : trim (' ' :: p.type.takeWhile (· != ',')) = trim (p.type.takeWhile (· != ',')) :=
      trim_space_cons _
    rw [quantifiedVariable?, hcut]
    simp only [hspace, p.trim_name]
  have hrest : (cut ',' p.type).tail.filterMap quantifiedVariable? = [] := by
    refine List.filterMap_eq_nil_iff.mpr fun piece hpiece => ?_
    have hcolon : ':' ∉ piece := fun hmem =>
      p.genericText.not_mem rfl (mem_of_mem_cut (List.mem_of_mem_tail hpiece) hmem)
    rw [quantifiedVariable?, cut_of_not_mem hcolon]
  rw [p.cut_text, List.filterMap_cons, hfirst, hrest]

theorem filterMap_cut_listed (ps : List Parameter) :
    (cut ',' (listed (ps.map Parameter.text))).filterMap quantifiedVariable? =
      ps.map fun p => (String.ofList p.name, String.ofList (trim (p.type.takeWhile (· != ',')))) := by
  have hpieces := flatMap_cut_listed (g := fun piece => (quantifiedVariable? piece).toList) rfl
    (fun piece => by rw [quantifiedVariable?_space]) (ps.map Parameter.text)
  simp only [← List.filterMap_eq_flatMap_toList, List.flatMap_map, filterMap_cut_parameter] at hpieces
  rw [hpieces, List.map_eq_flatMap]

/-! ### Round trips -/

/-- A function of that name with its parameters. -/
def signatureText (f : List Char) (ps : List Parameter) : String :=
  String.ofList ("define ".toList ++ f ++ '(' :: (listed (ps.map Parameter.text) ++ [')']))

/-- A quantifier over the parameters. -/
def quantifierText (ps : List Parameter) : String :=
  String.ofList ("forall(".toList ++ (listed (ps.map Parameter.text) ++ [')']))

/-- The parameters with their whole types, blanks apart. -/
def wholeTypes (ps : List Parameter) : OrderedMap String :=
  ps.map fun p => (String.ofList p.name, String.ofList (compact p.type))

/-- Entries for parameters with names of their own make a map as they are. -/
theorem ofEntries_parameters {ps : List Parameter} (hps : (ps.map Parameter.name).Nodup) (type : Parameter → String) :
    OrderedMap.ofEntries (ps.map fun p => (String.ofList p.name, type p)) =
      ps.map fun p => (String.ofList p.name, type p) := by
  refine OrderedMap.ofEntries_of_nodup ?_
  have hnames : ((ps.map Parameter.name).map String.ofList).Nodup :=
    List.Nodup.map (fun _ _ => String.ofList_injective) hps
  rw [List.map_map] at hnames ⊢
  exact hnames

theorem annotations_signatureText {f : List Char} {ps : List Parameter} (hf : IsVariable f)
    (hps : (ps.map Parameter.name).Nodup) :
    annotations (signatureText f ps) =
      ps.map fun p => (String.ofList p.name, String.ofList (compact (typeFront p.type))) := by
  have hfront : ':' ∉ "define ".toList ++ f := by
    intro hmem
    rcases List.mem_append.mp hmem with hmem | hmem
    · exact absurd hmem (by decide)
    · exact absurd (hf.lower _ hmem) (by decide)
  have htext : (signatureText f ps).toList =
      "define ".toList ++ f ++ '(' :: (listed (ps.map Parameter.text) ++ [')']) := String.toList_ofList
  have hfound : found (anywhere annotation) (signatureText f ps).toList =
      ps.map fun p => (p.name, typeFront p.type) := by
    rw [htext, found_annotation_pass (d := '(') hfront rfl rfl (by decide), found_annotation_listed]
  rw [annotations, hfound, List.map_map]
  exact ofEntries_parameters hps fun p => String.ofList (compact (typeFront p.type))

theorem quantified_quantifierText {ps : List Parameter} (hps : (ps.map Parameter.name).Nodup) :
    quantified (quantifierText ps) =
      ps.map fun p => (String.ofList p.name, String.ofList (trim (p.type.takeWhile (· != ',')))) := by
  have hread := quantifier_forall (not_mem_listed_parameters ps (c := ')') rfl) []
  have htext : (quantifierText ps).toList = "forall(".toList ++ (listed (ps.map Parameter.text) ++ [')']) :=
    String.toList_ofList
  rw [← List.append_nil ("forall(".toList ++ _)] at hread htext
  rw [quantified, htext, found_append_of_read hread (by simp), List.flatMap_cons, filterMap_cut_listed]
  exact (congrArg _ (List.append_nil _)).trans (ofEntries_parameters hps _)

theorem compact_typeFront_eq_iff {t : List Char} (h : GenericText t) :
    compact (typeFront t) = compact t ↔ '[' ∉ t := by
  have hmark : ∀ c : Char, (c != ',' && c != ']') = false → isBlank c = false := by
    intro c hc
    rcases Bool.and_eq_false_iff.mp hc with hc | hc <;> rw [bne_eq_false_iff_eq.mp hc] <;> rfl
  rw [typeFront, compact_takeWhile_eq_iff hmark]
  rcases h.isName_or_bracketed with hname | ⟨front, rfl, hopen⟩
  · refine iff_of_true (fun c hc => ?_) (hname.not_mem rfl)
    have hcomma : c ≠ ',' := fun heq => hname.not_mem rfl (heq ▸ hc)
    have hclose : c ≠ ']' := fun heq => hname.not_mem rfl (heq ▸ hc)
    simp [hcomma, hclose]
  · refine iff_of_false (fun hall => ?_) fun hnot => hnot (List.mem_append_left _ hopen)
    cases hall ']' (by simp)

theorem compact_takeWhile_comma_eq_iff (t : List Char) : compact (t.takeWhile (· != ',')) = compact t ↔ ',' ∉ t := by
  have hmark : ∀ c : Char, (c != ',') = false → isBlank c = false := by
    intro c hc
    rw [bne_eq_false_iff_eq.mp hc]
    rfl
  rw [compact_takeWhile_eq_iff hmark]
  constructor
  · intro hall hmem
    cases hall ',' hmem
  · intro hnot c hc
    exact bne_iff_ne.mpr fun heq => hnot (heq ▸ hc)

/-- Both a signature and a quantifier give a type to each of their variables and to no other name. In a signature it is
    the type up to its first comma or closing bracket, which is the whole of it only where it has no brackets; in a
    quantifier it is the type up to its first comma. -/
theorem types_read_up_to_marks (f : List Char) (ps : List Parameter) (hf : IsVariable f)
    (hps : (ps.map Parameter.name).Nodup) :
    (annotations (signatureText f ps) =
        ps.map (fun p => (String.ofList p.name, String.ofList (compact (typeFront p.type)))) ∧
      (annotations (signatureText f ps) = wholeTypes ps ↔ ∀ p ∈ ps, '[' ∉ p.type)) ∧
    (quantified (quantifierText ps) =
        ps.map (fun p => (String.ofList p.name, String.ofList (trim (p.type.takeWhile (· != ','))))) ∧
      ((quantified (quantifierText ps)).map (fun e => (e.1, String.ofList (compact e.2.toList))) = wholeTypes ps ↔
        ∀ p ∈ ps, ',' ∉ p.type)) := by
  rw [annotations_signatureText hf hps, quantified_quantifierText hps]
  refine ⟨⟨rfl, ?_⟩, rfl, ?_⟩
  · rw [wholeTypes, List.map_inj_left]
    refine forall₂_congr fun p _ => ?_
    rw [Prod.mk.injEq, and_iff_right rfl, String.ofList_inj, compact_typeFront_eq_iff p.genericText]
  · rw [wholeTypes, List.map_map, List.map_inj_left]
    refine forall₂_congr fun p _ => ?_
    rw [Function.comp_apply, Prod.mk.injEq, and_iff_right rfl, String.ofList_inj, String.toList_ofList, compact_trim,
      compact_takeWhile_comma_eq_iff]

/-- Of a pair, the type of the first component is left, with the bracket in front of it. -/
theorem types_read_up_to_marks_pair :
    annotations "define f(p: Pair[T, U])" = [("p", "Pair[T")] ∧
      quantified "forall(p: Pair[T, U])" = [("p", "Pair[T")] := by
  obtain ⟨⟨hsignature, -⟩, hquantifier, -⟩ :=
    types_read_up_to_marks ['f'] [.pair] ⟨rfl, List.all_eq_true.mp rfl⟩ (List.nodup_singleton _)
  exact ⟨hsignature, hquantifier⟩

end AcornCatalog.Dependency
