import AcornCatalog.Dependency.Inference
import AcornCatalog.Proofs.Declaration.ClassField

/-! The shapes that tell what a text depends on, each said by the texts that have it. -/

namespace AcornCatalog.Dependency

open Text Reader Header

/-! ### Variables -/

/-- Variables and functions are named like the fields of a class. -/
abbrev IsVariable (w : List Char) : Prop := IsFieldName w

/-- No variable goes on with the text. -/
def Parted (rest : List Char) : Prop := ∀ c ∈ rest.head?, isLowerChar c = false

section Variables

variable {w v x rest tail cs : List Char}

theorem IsVariable.exists_cons (h : IsVariable w) :
    ∃ c run, w = c :: run ∧ isLowerStart c = true ∧ ∀ d ∈ run, isLowerChar d = true := by
  obtain ⟨hhead, hlower⟩ := h
  cases w with
  | nil => cases hhead
  | cons c run => exact ⟨c, run, rfl, hhead, fun d hd => hlower d (List.mem_cons_of_mem c hd)⟩

theorem IsVariable.ne_nil (h : IsVariable w) : w ≠ [] := by
  obtain ⟨c, run, rfl, -⟩ := h.exists_cons
  exact List.cons_ne_nil _ _

theorem IsVariable.nameFrom (h : IsVariable w) : NameFrom isNameStart w := by
  obtain ⟨c, run, rfl, hc, -⟩ := h.exists_cons
  exact ⟨isNameStart_of_isLowerStart hc, fun d hd => isNameChar_of_isLowerChar (h.lower d hd)⟩

theorem IsVariable.of_prefix (h : IsVariable w) (hx : x <+: w) (hne : x ≠ []) : IsVariable x := by
  obtain ⟨more, rfl⟩ := hx
  obtain ⟨c, x, rfl⟩ := List.exists_cons_of_ne_nil hne
  exact ⟨h.head, fun d hd => h.lower d (List.mem_append_left _ hd)⟩

theorem IsVariable.append (hw : IsVariable w) (hv : IsVariable v) : IsVariable (w ++ v) := by
  obtain ⟨c, run, rfl, hc, -⟩ := hw.exists_cons
  exact ⟨hc, fun d hd => (List.mem_append.mp hd).elim (hw.lower d) (hv.lower d)⟩

/-- A variable is told from what stands behind it. -/
theorem IsVariable.append_inj (hw : IsVariable w) (hv : IsVariable v) (hrest : Parted rest) (htail : Parted tail)
    (h : w ++ rest = v ++ tail) : w = v ∧ rest = tail := by
  have hwhole {w rest : List Char} (hw : IsVariable w) (hrest : Parted rest) :
      (w ++ rest).takeWhile isLowerChar = w := by
    rw [List.takeWhile_append_of_pos hw.lower]
    cases rest with
    | nil => simp
    | cons c rest => simp [hrest c rfl]
  have heq : w = v := by rw [← hwhole hw hrest, h, hwhole hv htail]
  subst heq
  exact ⟨rfl, List.append_cancel_left h⟩

theorem lowerWord_eq_some_iff :
    lowerWord cs = some (w, rest) ↔ IsVariable w ∧ Parted rest ∧ cs = w ++ rest := by
  refine (word_eq_some_iff fun _ => isLowerChar_of_isLowerStart).trans ?_
  rw [← and_assoc]
  exact and_congr_left' ⟨fun h => ⟨h.1, h.2⟩, fun h => ⟨h.head, h.lower⟩⟩

theorem isLowerChar_eq_false_of_isBlank {c : Char} (h : isBlank c = true) : isLowerChar c = false := by
  cases hc : isLowerChar c with
  | false => rfl
  | true =>
    rw [isBlank_eq_false_of_isNameChar (isNameChar_of_isLowerChar hc)] at h
    cases h

/-- What begins with no blank. -/
def Flush (cs : List Char) : Prop := ∀ c ∈ cs.head?, isBlank c = false

theorem IsVariable.flush_append (h : IsVariable w) (rest : List Char) : Flush (w ++ rest) := by
  obtain ⟨c, run, rfl, hc, -⟩ := h.exists_cons
  rintro d ⟨⟩
  exact isBlank_eq_false_of_isNameChar (isNameChar_of_isLowerStart hc)

theorem blanks_gap {gap : List Char} (hgap : allBlank gap = true) (hcs : Flush cs) :
    blanks (gap ++ cs) = some ((), cs) := by
  cases cs with
  | nil => exact congrArg (fun rest => some ((), rest)) (trimStart_append_of_allBlank hgap [])
  | cons c cs => exact blanks_append hgap (hcs c rfl) cs

theorem exists_blanks (cs : List Char) : ∃ gap, allBlank gap = true ∧ cs = gap ++ cs.dropWhile isBlank :=
  ⟨cs.takeWhile isBlank, List.all_takeWhile, List.takeWhile_append_dropWhile.symm⟩

end Variables

/-! ### Where a variable begins -/

/-- No variable ends with the text, so what begins behind it is not the tail of a longer name. -/
def Opening (front : List Char) : Prop := ∀ w, w <:+ front → ¬IsVariable w

section Opening

variable {front lower tail u v w g left : List Char}

theorem Opening.nil : Opening [] := by
  intro w hw h
  exact h.ne_nil (List.suffix_nil.mp hw)

theorem Opening.of_suffix (h : Opening front) (hlower : lower <:+ front) : Opening lower :=
  fun w hw => h w (hw.trans hlower)

/-- Every variable is the tail of a longest one. -/
theorem exists_opening (front : List Char) {x : List Char} (hx : IsVariable x) :
    ∃ upper w, front ++ x = upper ++ w ∧ IsVariable w ∧ Opening upper := by
  by_cases hopen : Opening front
  · exact ⟨front, x, rfl, hx, hopen⟩
  · simp only [Opening, not_forall, not_not] at hopen
    obtain ⟨w, ⟨upper, rfl⟩, hw⟩ := hopen
    have hshorter : upper.length < (upper ++ w).length := by
      have := List.length_pos_iff.mpr hw.ne_nil
      rw [List.length_append]
      omega
    obtain ⟨upper', w', heq, h⟩ := exists_opening upper (hw.append hx)
    exact ⟨upper', w', by rw [List.append_assoc, heq], h⟩
termination_by front.length

/-- Two variables with a separator between them reach over the beginning of a third only if that is the second of
    them. -/
theorem eq_of_reaching (hne : lower ≠ []) (hopen : Opening lower) (hv : IsVariable v) (htail : Parted tail)
    (hu : IsVariable u) (hg : ∀ c ∈ g, isLowerChar c = false) (hw : IsVariable w) (hleft : Parted left)
    (hreach : left.length < (v ++ tail).length) (h : lower ++ (v ++ tail) = u ++ (g ++ (w ++ left))) :
    lower = u ++ g ∧ v = w ∧ tail = left := by
  rw [← List.append_assoc u g] at h
  rcases List.append_eq_append_iff.mp h with ⟨y, hy, hvy⟩ | ⟨y, rfl, hwy⟩
  · cases y with
    | nil =>
      obtain ⟨rfl, rfl⟩ := hv.append_inj hw htail hleft hvy
      exact ⟨by simpa using hy.symm, rfl, rfl⟩
    | cons c y =>
      -- the third would begin within the first or within the separator
      have hc : isLowerChar c = true := by
        obtain ⟨d, run, rfl, hd, -⟩ := hv.exists_cons
        rw [List.cons_append, List.cons_append] at hvy
        rw [← (List.cons.inj hvy).1]
        exact isLowerChar_of_isLowerStart hd
      rcases List.append_eq_append_iff.mp hy with ⟨z, rfl, hz⟩ | ⟨z, rfl, hz⟩
      · have hmem := hg c (hz ▸ List.mem_append_right _ (List.mem_cons_self ..))
        rw [hc] at hmem
        cases hmem
      · exact absurd (hu.of_prefix (List.prefix_append ..) hne) (hopen _ (List.suffix_refl _))
  · cases y with
    | nil =>
      obtain ⟨rfl, rfl⟩ := hw.append_inj hv hleft htail hwy
      exact ⟨by simp, rfl, rfl⟩
    | cons c y =>
      -- the third would begin within the second
      rcases List.append_eq_append_iff.mp hwy with ⟨z, hz, hleft'⟩ | ⟨z, rfl, -⟩
      · have hlength := congrArg List.length hleft'
        rw [List.length_append] at hlength
        omega
      · exact absurd (hw.of_prefix (List.prefix_append ..) (List.cons_ne_nil _ _))
          (hopen _ (List.suffix_append ..))

end Opening

/-! ### Operators -/

/-- The signs of the operators between two operands. -/
def operatorSigns : List String := binaryMethods.map (·.1)

/-- An angle takes the equals sign behind it, if there is one. -/
theorem operatorSign_angle {c : Char} (hc : c = '<' ∨ c = '>') (cs : List Char) :
    operatorSign (c :: cs) =
      if cs.head? = some '=' then some (String.ofList [c, '='], cs.drop 1) else some (String.ofList [c], cs) := by
  have hone : one (fun c => "+-*/%<>".toList.contains c) (c :: cs) = some (c, cs) := by
    refine one_eq_some.mpr ⟨?_, rfl⟩
    rcases hc with rfl | rfl <;> rfl
  have hangle : (c == '<' || c == '>') = true := by simpa using hc
  rw [operatorSign, bind_eq_of_some hone, if_pos hangle]
  cases cs with
  | nil => rfl
  | cons d cs =>
    by_cases hd : d = '='
    · subst hd
      rfl
    · have hmaybe : maybe (one (· == '=')) (d :: cs) = some (none, d :: cs) := by simp [maybe, one, hd]
      rw [bind_eq_of_some hmaybe]
      simp only [List.head?_cons, Option.some.injEq, hd, if_false]
      rfl

theorem operatorSign_eq_some_iff {cs rest : List Char} {sign : String} :
    operatorSign cs = some (sign, rest) ↔
      sign ∈ operatorSigns ∧ (rest.head? = some '=' → sign ≠ "<" ∧ sign ≠ ">") ∧ cs = sign.toList ++ rest := by
  constructor
  · intro h
    obtain ⟨⟨c, behind⟩, hone, -⟩ := Option.bind_eq_some_iff.mp h
    obtain ⟨hc, rfl⟩ := one_eq_some.mp hone
    by_cases hangle : c = '<' ∨ c = '>'
    · rw [operatorSign_angle hangle] at h
      split at h
      · next hequals =>
        obtain ⟨behind, rfl⟩ := List.head?_eq_some_iff.mp hequals
        cases h
        rcases hangle with rfl | rfl <;> exact ⟨by decide, fun _ => by decide, rfl⟩
      · next hequals =>
        cases h
        rcases hangle with rfl | rfl <;> exact ⟨by decide, fun heq => absurd heq hequals, rfl⟩
    · have hmem : c ∈ "+-*/%<>".toList := List.contains_iff_mem.mp hc
      simp only [String.reduceToList, List.mem_cons, List.not_mem_nil, or_false] at hmem
      rcases hmem with rfl | rfl | rfl | rfl | rfl | hmem
      iterate 5
        cases h
        exact ⟨by decide, fun _ => by decide, rfl⟩
      exact absurd hmem hangle
  · rintro ⟨hsign, hequals, rfl⟩
    simp only [operatorSigns, binaryMethods, List.map_cons, List.map_nil, List.mem_cons, List.not_mem_nil,
      or_false] at hsign
    rcases hsign with rfl | rfl | rfl | rfl | rfl | rfl | rfl | rfl | rfl
    · exact (operatorSign_angle (Or.inr rfl) rest).trans (if_neg fun heq => (hequals heq).2 rfl)
    · exact (operatorSign_angle (Or.inl rfl) rest).trans (if_neg fun heq => (hequals heq).1 rfl)
    · exact (operatorSign_angle (Or.inr rfl) ('=' :: rest)).trans (if_pos rfl)
    · exact (operatorSign_angle (Or.inl rfl) ('=' :: rest)).trans (if_pos rfl)
    iterate 5 rfl

/-- The text between two operands: an operator sign with blanks around it. -/
def OperatorText (sign : String) (g : List Char) : Prop :=
  ∃ gap gap', allBlank gap = true ∧ allBlank gap' = true ∧ sign ∈ operatorSigns ∧ g = gap ++ (sign.toList ++ gap')

section Operators

variable {sign : String} {g left rest cs : List Char}

theorem operatorSigns_chars (h : sign ∈ operatorSigns) :
    sign.toList ≠ [] ∧ ∀ c ∈ sign.toList, isBlank c = false ∧ isLowerChar c = false := by
  have hall : ∀ s ∈ operatorSigns, s.toList ≠ [] ∧ s.toList.all (fun c => !isBlank c && !isLowerChar c) = true := by
    decide
  obtain ⟨hne, hchars⟩ := hall sign h
  refine ⟨hne, fun c hc => ?_⟩
  simpa using List.all_eq_true.mp hchars c hc

theorem flush_sign (h : sign ∈ operatorSigns) (rest : List Char) : Flush (sign.toList ++ rest) := by
  obtain ⟨hne, hchars⟩ := operatorSigns_chars h
  obtain ⟨c, chars, hc⟩ := List.exists_cons_of_ne_nil hne
  rw [hc]
  rintro d ⟨⟩
  exact (hchars c (hc ▸ List.mem_cons_self ..)).1

theorem OperatorText.ne_nil (h : OperatorText sign g) : g ≠ [] := by
  obtain ⟨gap, gap', -, -, hsign, rfl⟩ := h
  simp [(operatorSigns_chars hsign).1]

theorem OperatorText.isLowerChar_eq_false (h : OperatorText sign g) {c : Char} (hc : c ∈ g) :
    isLowerChar c = false := by
  obtain ⟨gap, gap', hgap, hgap', hsign, rfl⟩ := h
  simp only [List.mem_append] at hc
  rcases hc with hc | hc | hc
  · exact isLowerChar_eq_false_of_isBlank (List.all_eq_true.mp hgap c hc)
  · exact ((operatorSigns_chars hsign).2 c hc).2
  · exact isLowerChar_eq_false_of_isBlank (List.all_eq_true.mp hgap' c hc)

theorem parted_append {g : List Char} (hne : g ≠ []) (h : ∀ c ∈ g, isLowerChar c = false) (rest : List Char) :
    Parted (g ++ rest) := by
  obtain ⟨c, g, rfl⟩ := List.exists_cons_of_ne_nil hne
  rintro d ⟨⟩
  exact h c (List.mem_cons_self ..)

/-- An operation is two variables with an operator between them, the second told from what follows. -/
theorem operation_eq_some_iff :
    operation cs = some ((left, sign), rest) ↔
      ∃ g right, IsVariable left ∧ OperatorText sign g ∧ IsVariable right ∧ Parted rest ∧
        cs = left ++ (g ++ (right ++ rest)) := by
  constructor
  · intro h
    obtain ⟨⟨w, behind⟩, hleft, h⟩ := Option.bind_eq_some_iff.mp h
    obtain ⟨⟨s, behind'⟩, hsign, h⟩ := Option.bind_eq_some_iff.mp h
    obtain ⟨⟨right, rest'⟩, hright, h⟩ := Option.bind_eq_some_iff.mp h
    cases h
    obtain ⟨hw, -, rfl⟩ := lowerWord_eq_some_iff.mp hleft
    obtain ⟨hs, -, hbehind⟩ := operatorSign_eq_some_iff.mp hsign
    obtain ⟨hr, hrest, hbehind'⟩ := lowerWord_eq_some_iff.mp hright
    obtain ⟨gap, hgap, hcs⟩ := exists_blanks behind
    obtain ⟨gap', hgap', hcs'⟩ := exists_blanks behind'
    refine ⟨gap ++ (sign.toList ++ gap'), right, hw, ⟨gap, gap', hgap, hgap', hs, rfl⟩, hr, hrest, ?_⟩
    rw [hcs, hbehind, hcs', hbehind']
    simp only [List.append_assoc]
  · rintro ⟨g, right, hleft, hg, hright, hrest, rfl⟩
    have hparted := parted_append hg.ne_nil (fun _ => hg.isLowerChar_eq_false) (right ++ rest)
    have hword := lowerWord_eq_some_iff.mpr ⟨hleft, hparted, rfl⟩
    obtain ⟨gap, gap', hgap, hgap', hsign, rfl⟩ := hg
    -- behind the sign comes a blank or the second variable, so no equals sign
    have hread : operatorSign (sign.toList ++ (gap' ++ (right ++ rest))) = some (sign, gap' ++ (right ++ rest)) := by
      refine operatorSign_eq_some_iff.mpr ⟨hsign, fun hequals => ?_, rfl⟩
      cases gap' with
      | nil =>
        obtain ⟨d, run, rfl, hd, -⟩ := hright.exists_cons
        cases hequals
        cases hd
      | cons b gap' =>
        cases hequals
        cases hgap'
    simp only [List.append_assoc] at hword ⊢
    rw [operation, bind_eq_of_some hword, bind_eq_of_some (blanks_gap hgap (flush_sign hsign _)), bind_eq_of_some hread,
      bind_eq_of_some (blanks_gap hgap' (hright.flush_append rest)),
      bind_eq_of_some (lowerWord_eq_some_iff.mpr ⟨hright, hrest, rfl⟩)]
    rfl

end Operators

/-! ### Calls, properties and quantifiers -/

/-- A function that is called: its name up to the parenthesis. -/
def calledName : Reader (List Char) := do
  let name ← lowerWord
  blanks
  literal "("
  return name

section Calls

variable {cs rest gap owner name inner : List Char}

theorem parted_cons {c : Char} (h : isLowerChar c = false) (rest : List Char) : Parted (c :: rest) := by
  rintro d ⟨⟩
  exact h

theorem parted_of_allBlank (hgap : allBlank gap = true) : Parted gap := by
  intro c hc
  exact isLowerChar_eq_false_of_isBlank (List.all_eq_true.mp hgap c (List.mem_of_mem_head? hc))

theorem parted_gap {c : Char} (hgap : allBlank gap = true) (hc : isLowerChar c = false) (rest : List Char) :
    Parted (gap ++ c :: rest) := by
  cases gap with
  | nil => exact parted_cons hc rest
  | cons b gap =>
    have hb : Parted (b :: gap) := parted_of_allBlank hgap
    exact hb

theorem calledName_eq_some_iff :
    calledName cs = some (name, rest) ↔
      ∃ gap, IsVariable name ∧ allBlank gap = true ∧ cs = name ++ (gap ++ '(' :: rest) := by
  constructor
  · intro h
    obtain ⟨⟨w, behind⟩, hname, h⟩ := Option.bind_eq_some_iff.mp h
    obtain ⟨⟨⟨⟩, left⟩, hopen, h⟩ := Option.bind_eq_some_iff.mp h
    cases h
    obtain ⟨hw, -, rfl⟩ := lowerWord_eq_some_iff.mp hname
    obtain ⟨gap, hgap, hcs⟩ := exists_blanks behind
    refine ⟨gap, hw, hgap, ?_⟩
    rw [hcs, literal_eq_some.mp hopen]
    rfl
  · rintro ⟨gap, hname, hgap, rfl⟩
    have hparted := parted_gap hgap (show isLowerChar '(' = false from rfl) rest
    rw [calledName, bind_eq_of_some (lowerWord_eq_some_iff.mpr ⟨hname, hparted, rfl⟩),
      bind_eq_of_some (blanks_append hgap rfl rest)]
    rfl

theorem methodCall_eq_some_iff :
    methodCall cs = some ((owner, name), rest) ↔
      ∃ gap, IsVariable owner ∧ IsVariable name ∧ allBlank gap = true ∧
        cs = owner ++ '.' :: (name ++ (gap ++ '(' :: rest)) := by
  constructor
  · intro h
    obtain ⟨⟨w, dotted⟩, howner, h⟩ := Option.bind_eq_some_iff.mp h
    obtain ⟨⟨⟨⟩, named⟩, hdot, h⟩ := Option.bind_eq_some_iff.mp h
    obtain ⟨⟨m, behind⟩, hname, h⟩ := Option.bind_eq_some_iff.mp h
    obtain ⟨⟨⟨⟩, left⟩, hopen, h⟩ := Option.bind_eq_some_iff.mp h
    cases h
    obtain ⟨hw, -, rfl⟩ := lowerWord_eq_some_iff.mp howner
    obtain ⟨hm, -, rfl⟩ := lowerWord_eq_some_iff.mp hname
    obtain ⟨gap, hgap, hcs⟩ := exists_blanks behind
    refine ⟨gap, hw, hm, hgap, ?_⟩
    rw [literal_eq_some.mp hdot, hcs, literal_eq_some.mp hopen]
    rfl
  · rintro ⟨gap, howner, hname, hgap, rfl⟩
    have hparted := parted_gap hgap (show isLowerChar '(' = false from rfl) rest
    have hdot : literal "." ('.' :: (name ++ (gap ++ '(' :: rest))) = some ((), name ++ (gap ++ '(' :: rest)) := rfl
    rw [methodCall, bind_eq_of_some (lowerWord_eq_some_iff.mpr ⟨howner, parted_cons rfl _, rfl⟩),
      bind_eq_of_some hdot, bind_eq_of_some (lowerWord_eq_some_iff.mpr ⟨hname, hparted, rfl⟩),
      bind_eq_of_some (blanks_append hgap rfl rest)]
    rfl

theorem quantifier_eq_some_iff :
    quantifier cs = some (inner, rest) ↔
      ∃ w gap, (w = "forall" ∨ w = "exists") ∧ allBlank gap = true ∧ ')' ∉ inner ∧
        cs = w.toList ++ (gap ++ '(' :: (inner ++ ')' :: rest)) := by
  constructor
  · intro h
    obtain ⟨⟨⟨⟩, behind⟩, hkeyword, h⟩ := Option.bind_eq_some_iff.mp h
    obtain ⟨gap, hgap, hbehind⟩ := exists_blanks behind
    have hbetween : between '(' ')' (behind.dropWhile isBlank) = some (inner, rest) := h
    obtain ⟨hinner, hcs⟩ := between_eq_some.mp hbetween
    rcases Option.or_eq_some_iff.mp hkeyword with hword | ⟨-, hword⟩
    · exact ⟨"forall", gap, Or.inl rfl, hgap, hinner, by rw [literal_eq_some.mp hword, ← hcs, ← hbehind]⟩
    · exact ⟨"exists", gap, Or.inr rfl, hgap, hinner, by rw [literal_eq_some.mp hword, ← hcs, ← hbehind]⟩
  · rintro ⟨w, gap, hw, hgap, hinner, rfl⟩
    have hkeyword : orElse (literal "forall") (literal "exists") (w.toList ++ (gap ++ '(' :: (inner ++ ')' :: rest))) =
        some ((), gap ++ '(' :: (inner ++ ')' :: rest)) := by
      rcases hw with rfl | rfl <;> rfl
    rw [quantifier, bind_eq_of_some hkeyword, bind_eq_of_some (blanks_append hgap rfl _)]
    exact between_eq_some.mpr ⟨hinner, rfl⟩

end Calls

section Properties

variable {cs rest owner name shown tail : List Char}

theorem property_append (howner : IsVariable owner) (hname : IsVariable name) (htail : Parted tail) :
    property (owner ++ '.' :: (name ++ tail)) = (uncalled name tail).map fun read => ((owner, read.1), read.2) := by
  have hdot : literal "." ('.' :: (name ++ tail)) = some ((), name ++ tail) := rfl
  rw [property, bind_eq_of_some (lowerWord_eq_some_iff.mpr ⟨howner, parted_cons rfl _, rfl⟩), bind_eq_of_some hdot,
    bind_eq_of_some (lowerWord_eq_some_iff.mpr ⟨hname, htail, rfl⟩)]
  cases hread : uncalled name tail with
  | none => exact bind_eq_none hread
  | some read => exact bind_eq_of_some hread

theorem property_eq_some (h : property cs = some ((owner, shown), rest)) :
    ∃ name tail, IsVariable owner ∧ IsVariable name ∧ Parted tail ∧ cs = owner ++ '.' :: (name ++ tail) ∧
      uncalled name tail = some (shown, rest) := by
  obtain ⟨⟨w, dotted⟩, howner, h⟩ := Option.bind_eq_some_iff.mp h
  obtain ⟨⟨⟨⟩, named⟩, hdot, h⟩ := Option.bind_eq_some_iff.mp h
  obtain ⟨⟨name, tail⟩, hname, h⟩ := Option.bind_eq_some_iff.mp h
  obtain ⟨⟨m, left⟩, huncalled, h⟩ := Option.bind_eq_some_iff.mp h
  cases h
  obtain ⟨hw, -, rfl⟩ := lowerWord_eq_some_iff.mp howner
  obtain ⟨hn, htail, rfl⟩ := lowerWord_eq_some_iff.mp hname
  exact ⟨name, tail, hw, hn, htail, congrArg _ (literal_eq_some.mp hdot), huncalled⟩

end Properties

end AcornCatalog.Dependency
