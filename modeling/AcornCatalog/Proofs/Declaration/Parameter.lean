import AcornCatalog.Proofs.Dependency.Shape

/-! Lists of parameters, as signatures and quantifiers have them: each parameter is a variable, a colon and a type, and
a type is a name or has further types in square brackets. Commas stand between parameters and also within types, so a
list that is cut at its commas falls into more pieces than it has parameters. -/

namespace AcornCatalog

open Text Header Dependency

/-! ### Types -/

/-- The texts of types without functions: a name with a capital, or such a name with types in square brackets. Blanks
    may stand around the types in the brackets. -/
inductive GenericText : List Char → Prop where
  | name {n : List Char} (h : NameFrom Char.isUpper n) : GenericText n
  | generic {n : List Char} {args : List (List Char)} (hname : NameFrom Char.isUpper n) (hne : args ≠ [])
      (hargs : ∀ a ∈ args, GenericText (trim a)) : GenericText (n ++ '[' :: [','].intercalate args ++ [']'])

namespace GenericText

variable {t : List Char}

theorem chars (h : GenericText t) : ∀ c ∈ t, isFieldTypeChar c = true := by
  have hname {n : List Char} (hn : NameFrom Char.isUpper n) : ∀ c ∈ n, isFieldTypeChar c = true := by
    intro c hc
    rw [isFieldTypeChar, hn.name c hc]
    rfl
  induction h with
  | name hn => exact hname hn
  | generic hn hne hargs ih =>
    intro c hc
    rcases mem_generic hc with hc | rfl | rfl | rfl | hblank | ⟨a, ha, hc⟩
    · exact hname hn c hc
    · rfl
    · rfl
    · rfl
    · simp [isFieldTypeChar, hblank]
    · exact ih a ha c hc

theorem not_mem (h : GenericText t) {c : Char} (hc : isFieldTypeChar c = false) : c ∉ t := by
  intro hmem
  rw [h.chars c hmem] at hc
  cases hc

/-- A type begins with a capital. -/
theorem exists_cons (h : GenericText t) : ∃ c back, t = c :: back ∧ c.isUpper = true := by
  cases h with
  | name hn =>
    obtain ⟨c, back, rfl, hc, -⟩ := hn.exists_cons
    exact ⟨c, back, rfl, hc⟩
  | generic hn =>
    obtain ⟨c, back, rfl, hc, -⟩ := hn.exists_cons
    exact ⟨c, _, rfl, hc⟩

/-- A type that is no name has brackets, the closing one at its end. -/
theorem isName_or_bracketed (h : GenericText t) : IsName t ∨ ∃ front, t = front ++ [']'] ∧ '[' ∈ front := by
  cases h with
  | name hn => exact Or.inl hn.name
  | @generic n args => exact Or.inr ⟨n ++ '[' :: [','].intercalate args, rfl, by simp⟩

end GenericText

/-! ### Parameters -/

/-- A variable with its type. -/
structure Parameter where
  name : List Char
  type : List Char
  isVariable : IsVariable name
  genericText : GenericText type

/-- A parameter as it is written. -/
def Parameter.text (p : Parameter) : List Char := p.name ++ (": ".toList ++ p.type)

/-- A parameter with a comma in its type. -/
def Parameter.pair : Parameter where
  name := ['p']
  type := "Pair".toList ++ '[' :: [','].intercalate ["T".toList, " U".toList] ++ [']']
  isVariable := ⟨rfl, List.all_eq_true.mp rfl⟩
  genericText := by
    have hname {n : List Char} (hhead : n.head?.any Char.isUpper = true) (hn : n.all isNameChar = true) :
        NameFrom Char.isUpper n := ⟨hhead, List.all_eq_true.mp hn⟩
    refine .generic (hname rfl rfl) (List.cons_ne_nil _ _) fun a ha => ?_
    simp only [List.mem_cons, List.not_mem_nil, or_false] at ha
    rcases ha with rfl | rfl <;> exact .name (hname rfl rfl)

theorem Parameter.trim_name (p : Parameter) : trim p.name = p.name := (TypeText.name p.isVariable.nameFrom).trim_eq

/-- Texts with a comma and a space between any two. -/
def listed (texts : List (List Char)) : List Char := ", ".toList.intercalate texts

theorem listed_cons_cons (text next : List Char) (texts : List (List Char)) :
    listed (text :: next :: texts) = text ++ ',' :: ' ' :: listed (next :: texts) := by
  simp [listed, List.intercalate_cons_cons]

theorem mem_listed {c : Char} {texts : List (List Char)} (h : c ∈ listed texts) :
    c = ',' ∨ c = ' ' ∨ ∃ text ∈ texts, c ∈ text := by
  induction texts with
  | nil => cases h
  | cons text texts ih =>
    cases texts with
    | nil =>
      rw [listed, List.intercalate_singleton] at h
      exact Or.inr (Or.inr ⟨text, List.mem_cons_self .., h⟩)
    | cons next texts =>
      rw [listed_cons_cons, List.mem_append, List.mem_cons, List.mem_cons] at h
      rcases h with h | h | h | h
      · exact Or.inr (Or.inr ⟨text, List.mem_cons_self .., h⟩)
      · exact Or.inl h
      · exact Or.inr (Or.inl h)
      · rcases ih h with h | h | ⟨other, hother, h⟩
        · exact Or.inl h
        · exact Or.inr (Or.inl h)
        · exact Or.inr (Or.inr ⟨other, List.mem_cons_of_mem _ hother, h⟩)

/-- The characters that stand in a parameter. -/
def isParameterChar (c : Char) : Bool := isFieldTypeChar c || c == ':'

theorem Parameter.chars (p : Parameter) {c : Char} (h : c ∈ p.text) : isParameterChar c = true := by
  rcases List.mem_append.mp h with h | h
  · simp [isParameterChar, isFieldTypeChar, isNameChar_of_isLowerChar (p.isVariable.lower c h)]
  · rcases List.mem_cons.mp h with rfl | h
    · rfl
    · rcases List.mem_cons.mp h with rfl | h
      · rfl
      · simp [isParameterChar, p.genericText.chars c h]

/-- Lists of parameters have no parentheses, no braces and no other signs. -/
theorem not_mem_listed_parameters (ps : List Parameter) {c : Char} (hc : isParameterChar c = false) :
    c ∉ listed (ps.map Parameter.text) := by
  intro hmem
  rcases mem_listed hmem with rfl | rfl | ⟨text, htext, hmem⟩
  · cases hc
  · cases hc
  · obtain ⟨p, -, rfl⟩ := List.mem_map.mp htext
    rw [p.chars hmem] at hc
    cases hc

section Listed

variable {β : Type} {g : Line → List β}

/-- Cut at its commas, a list falls into the pieces of the texts that it has, but for spaces. -/
theorem flatMap_cut_listed (hnil : g [] = []) (hspace : ∀ piece, g (' ' :: piece) = g piece)
    (texts : List (List Char)) :
    (cut ',' (listed texts)).flatMap g = texts.flatMap fun text => (cut ',' text).flatMap g := by
  induction texts with
  | nil => simp [listed, cut, hnil]
  | cons text texts ih =>
    cases texts with
    | nil => simp [listed]
    | cons next texts =>
      have hrest : (cut ',' (' ' :: listed (next :: texts))).flatMap g =
          (cut ',' (listed (next :: texts))).flatMap g := by
        rw [cut, if_neg (by decide), cut_eq_cons]
        simp [consFirst, hspace]
      rw [listed_cons_cons, cut_append, List.flatMap_append, hrest, ih]
      rfl

/-- The pieces between commas, each trimmed, where something is left. -/
def filledPieces (cs : List Char) : List Line := (commaPieces cs).filter (!·.isEmpty)

theorem filledPieces_listed (texts : List (List Char)) : filledPieces (listed texts) = texts.flatMap filledPieces := by
  have hpieces : filledPieces = fun cs => (cut ',' cs).flatMap fun piece => [trim piece].filter (!·.isEmpty) := by
    funext cs
    rw [filledPieces, commaPieces, List.map_eq_flatMap, List.filter_flatMap]
  rw [hpieces]
  exact flatMap_cut_listed rfl (fun piece => by rw [trim_space_cons]) texts

/-- A parameter falls into its name with the type up to the first comma, and the pieces behind that. -/
theorem Parameter.cut_text (p : Parameter) :
    cut ',' p.text = (p.name ++ (": ".toList ++ p.type.takeWhile (· != ','))) :: (cut ',' p.type).tail := by
  have hfront : ',' ∉ p.name ++ ": ".toList := by
    intro hmem
    rcases List.mem_append.mp hmem with hmem | hmem
    · exact absurd (p.isVariable.lower _ hmem) (by decide)
    · simp at hmem
  rw [Parameter.text, ← List.append_assoc, cut_append_of_not_mem hfront, cut_eq_cons, List.tail_cons, List.append_assoc]

end Listed

end AcornCatalog
