import AcornCatalog.Identifier.Mention
import AcornCatalog.Proofs.Declaration.Header
import AcornCatalog.Proofs.Text.Line
import AcornCatalog.Proofs.Text.Occurrence

/-! Members of types in the texts that speak of them. What a scan finds is a path, words with dots between them, and no
path reaches across a blank, so a name between blanks is found if the scan reads it at all. A member whose own name
begins in lower case is found by both scans; a constant need not be, for it may be called by a numeral or have a capital
in front. -/

namespace AcornCatalog

open Text Reader Header

/-! ### Characters -/

theorem isWordChar_eq_false_of_isBlank {c : Char} (h : isBlank c = true) : isWordChar c = false := by
  have hcodes : ∀ n ∈ List.range' 0x09 5 ++ List.range' 0x1C 5 ++ List.range' 0x2000 11 ++
      [0x85, 0xA0, 0x1680, 0x2028, 0x2029, 0x202F, 0x205F, 0x3000], isWordChar (Char.ofNat n) = false := by
    decide +kernel
  rw [← Char.ofNat_toNat c]
  refine hcodes c.toNat ?_
  simp only [isBlank, Bool.or_eq_true, Bool.and_eq_true, decide_eq_true_eq, beq_iff_eq] at h
  simp only [List.mem_append, List.mem_range'_1, List.mem_cons, List.not_mem_nil, or_false]
  omega

/-! ### What scans read -/

namespace Identifier

variable {first : Char → Bool}

/-- Words with dots between them. Those behind the first begin with a character in `first`. -/
def IsPath (first : Char → Bool) (w : List Char) : Prop :=
  ∃ owner parts, w = joinParts owner parts ∧ NameFrom isNameStart owner ∧ ∀ part ∈ parts, NameFrom first part

/-- What the reader takes off the front is a path, and is what it hands out. -/
def TakesPath (first : Char → Bool) (r : Reader (List Char)) : Prop :=
  ∀ cs w rest, r cs = some (w, rest) → IsPath first w ∧ cs = w ++ rest

section Paths

variable {owner own w : List Char} {parts : List (List Char)}

theorem joinParts_eq_intercalate (owner : List Char) (parts : List (List Char)) :
    joinParts owner parts = ['.'].intercalate (owner :: parts) := by
  induction parts generalizing owner with
  | nil => simp [joinParts]
  | cons part parts ih =>
    have hparts := ih part
    simp only [joinParts] at hparts
    rw [joinParts, List.flatMap_cons, List.intercalate_cons_cons, ← hparts]
    simp

theorem cut_joinParts (howner : IsName owner) (hparts : ∀ part ∈ parts, IsName part) :
    cut '.' (joinParts owner parts) = owner :: parts := by
  rw [joinParts_eq_intercalate]
  refine cut_intercalate (List.cons_ne_nil _ _) (List.forall_mem_cons.mpr ⟨howner.not_mem rfl, fun part hpart => ?_⟩)
  exact (hparts part hpart).not_mem rfl

theorem IsPath.mono {p q : Char → Bool} (h : IsPath p w) (hpq : ∀ c, p c = true → q c = true) : IsPath q w := by
  obtain ⟨owner, parts, heq, howner, hparts⟩ := h
  exact ⟨owner, parts, heq, howner, fun part hpart => (hparts part hpart).mono hpq⟩

theorem IsPath.isBlank_eq_false (h : IsPath first w) {c : Char} (hc : c ∈ w) : isBlank c = false := by
  obtain ⟨owner, parts, rfl, howner, hparts⟩ := h
  rcases List.mem_append.mp hc with hc | hc
  · exact isBlank_eq_false_of_isNameChar (howner.name c hc)
  · obtain ⟨part, hpart, hc⟩ := List.mem_flatMap.mp hc
    rcases List.mem_cons.mp hc with rfl | hc
    · rfl
    · exact isBlank_eq_false_of_isNameChar ((hparts part hpart).name c hc)

/-- A path of two words ends in one that begins with a character in `first`. -/
theorem IsPath.nameFrom_own (h : IsPath first (owner ++ '.' :: own)) (howner : '.' ∉ owner) (hown : '.' ∉ own) :
    NameFrom first own := by
  obtain ⟨front, parts, heq, hfront, hparts⟩ := h
  have hcut := congrArg (cut '.') heq
  rw [cut_append_sep howner, cut_of_not_mem hown, cut_joinParts hfront.name fun part hpart => (hparts part hpart).name]
    at hcut
  obtain ⟨-, hparts'⟩ := List.cons.inj hcut
  exact hparts own (hparts' ▸ List.mem_singleton_self own)

end Paths

section Scans

variable {cs rest : List Char}

theorem part_eq_some_iff (hfirst : ∀ c, first c = true → isNameChar c = true) {w : List Char} :
    part first cs = some (w, rest) ↔
      NameFrom first w ∧ (∀ c ∈ rest.head?, isNameChar c = false) ∧ cs = '.' :: w ++ rest := by
  constructor
  · intro h
    obtain ⟨⟨⟨⟩, behind⟩, hdot, hword⟩ := Option.bind_eq_some_iff.mp h
    obtain rfl := literal_eq_some.mp hdot
    obtain ⟨hw, rfl⟩ := word_eq_some hfirst (fun _ => id) hword
    exact ⟨hw, word_stops hword, rfl⟩
  · rintro ⟨hw, hrest, rfl⟩
    exact word_append hw hrest

theorem part_eq_some (hfirst : ∀ c, first c = true → isNameChar c = true) {w : List Char}
    (h : part first cs = some (w, rest)) : NameFrom first w ∧ cs = '.' :: w ++ rest := by
  obtain ⟨hw, -, hcs⟩ := (part_eq_some_iff hfirst).mp h
  exact ⟨hw, hcs⟩

/-- Parts are kept as they are where no word goes on behind them; else the last of them is given back. -/
theorem wholeParts_eq_some_iff {parts kept : List (List Char)} :
    wholeParts parts cs = some (kept, rest) ↔
      kept ≠ [] ∧
        ((cs.head?.any isWordChar = false ∧ parts = kept ∧ cs = rest) ∨
          (cs.head?.any isWordChar = true ∧ ∃ last, parts = kept ++ [last] ∧ '.' :: last ++ cs = rest)) := by
  rw [wholeParts, isSome_wordEnd]
  cases hcs : cs.head?.any isWordChar with
  | false =>
    simp only [Bool.not_false, if_true, List.isEmpty_iff, Option.ite_none_left_eq_some, Option.some.injEq,
      Prod.mk.injEq, true_and, Bool.false_eq_true, false_and, or_false]
    constructor
    · rintro ⟨hne, rfl, hrest⟩
      exact ⟨hne, rfl, hrest⟩
    · rintro ⟨hne, rfl, hrest⟩
      exact ⟨hne, rfl, hrest⟩
  | true =>
    rcases List.eq_nil_or_concat parts with rfl | ⟨init, last, rfl⟩
    · simp
    · simp only [List.concat_eq_append, List.getLast?_concat, List.dropLast_concat, List.isEmpty_iff,
        Option.ite_none_left_eq_some, Option.some.injEq, Prod.mk.injEq, Bool.not_true, Bool.false_eq_true, if_false,
        Bool.true_eq_false, false_and, false_or, true_and, List.append_singleton_inj]
      constructor
      · rintro ⟨hne, rfl, hrest⟩
        exact ⟨hne, last, ⟨rfl, rfl⟩, hrest⟩
      · rintro ⟨hne, v, ⟨rfl, rfl⟩, hrest⟩
        exact ⟨hne, rfl, hrest⟩

/-- The parts behind a name are what is taken for them, also where the last is given back. -/
theorem parts_eq_some (hfirst : ∀ c, first c = true → isNameChar c = true) {parts kept : List (List Char)}
    {behind : List Char} (hmany : many (part first) cs = some (parts, behind))
    (hwhole : wholeParts parts behind = some (kept, rest)) :
    (∀ w ∈ kept, NameFrom first w) ∧ cs = kept.flatMap ('.' :: ·) ++ rest := by
  obtain ⟨hparts, rfl⟩ := manyUpTo_eq_some (t := ('.' :: ·)) (fun _ _ _ => part_eq_some hfirst) hmany
  obtain ⟨-, ⟨-, rfl, rfl⟩ | ⟨-, last, rfl, rfl⟩⟩ := wholeParts_eq_some_iff.mp hwhole
  · exact ⟨hparts, rfl⟩
  · exact ⟨fun w hw => hparts w (List.mem_append_left _ hw), by simp⟩

theorem takesPath_memberChain : TakesPath isLowerStart memberChain := by
  intro cs w rest h
  obtain ⟨⟨owner, behind⟩, howner, h⟩ := Option.bind_eq_some_iff.mp h
  obtain ⟨⟨parts, behind'⟩, hparts, h⟩ := Option.bind_eq_some_iff.mp h
  obtain ⟨⟨kept, rest'⟩, hkept, h⟩ := Option.bind_eq_some_iff.mp h
  cases h
  obtain ⟨hname, hcs⟩ := word_eq_some (fun _ => isNameChar_of_isUpper) (fun _ => id) howner
  obtain ⟨hnames, hbehind⟩ := parts_eq_some (fun _ => isNameChar_of_isLowerStart) hparts hkept
  refine ⟨⟨owner, kept, rfl, hname.mono fun _ => isNameStart_of_isUpper, hnames⟩, ?_⟩
  simp only [hcs, hbehind, joinParts, List.append_assoc]

theorem module_eq_some {m : List Char}
    (h : (do
      let w ← lowerWord
      literal "."
      return w ++ ['.'] : Reader (List Char)) cs = some (m, rest)) :
    (∃ v, m = v ++ ['.'] ∧ NameFrom isLowerStart v) ∧ cs = m ++ rest := by
  obtain ⟨⟨v, behind⟩, hv, h⟩ := Option.bind_eq_some_iff.mp h
  obtain ⟨⟨⟨⟩, behind'⟩, hdot, h⟩ := Option.bind_eq_some_iff.mp h
  cases h
  obtain ⟨rest', hlead, heq⟩ := Option.map_eq_some_iff.mp hdot
  cases heq
  obtain ⟨hname, hcs⟩ := word_eq_some (fun _ => isNameChar_of_isLowerStart) (fun _ => isNameChar_of_isLowerChar) hv
  refine ⟨⟨v, rfl, hname⟩, ?_⟩
  rw [hcs, dropLead?_eq_some hlead]
  simp

/-- Modules in front of a path are words of a longer one. -/
theorem isPath_modules {modules : List (List Char)} {w : List Char}
    (hmodules : ∀ m ∈ modules, ∃ v, m = v ++ ['.'] ∧ NameFrom isLowerStart v) (hw : IsPath isNameStart w) :
    IsPath isNameStart (modules.flatten ++ w) := by
  induction modules with
  | nil => exact hw
  | cons m modules ih =>
    obtain ⟨⟨v, rfl, hv⟩, hrest⟩ := List.forall_mem_cons.mp hmodules
    obtain ⟨owner, parts, heq, howner, hparts⟩ := ih hrest
    refine ⟨v, owner :: parts, ?_, hv.mono fun _ => isNameStart_of_isLowerStart,
      List.forall_mem_cons.mpr ⟨howner, hparts⟩⟩
    rw [List.flatten_cons, List.append_assoc, heq]
    simp [joinParts]

/-- A type with modules in front and at least one part behind. -/
def IsModulePath (w : List Char) : Prop :=
  ∃ (modules : List (List Char)) (owner : List Char) (parts : List (List Char)),
    w = modules.flatten ++ joinParts owner parts ∧
    (∀ m ∈ modules, ∃ v, m = v ++ ['.'] ∧ NameFrom isLowerStart v) ∧ NameFrom Char.isUpper owner ∧ parts ≠ [] ∧
    ∀ part ∈ parts, NameFrom isNameStart part

theorem IsModulePath.isPath {w : List Char} (h : IsModulePath w) : IsPath isNameStart w := by
  obtain ⟨modules, owner, parts, rfl, hmodules, howner, -, hparts⟩ := h
  exact isPath_modules hmodules ⟨owner, parts, rfl, howner.mono fun _ => isNameStart_of_isUpper, hparts⟩

theorem IsModulePath.dot_mem {w : List Char} (h : IsModulePath w) : '.' ∈ w := by
  obtain ⟨modules, owner, parts, rfl, -, -, hne, -⟩ := h
  obtain ⟨part, parts, rfl⟩ := List.exists_cons_of_ne_nil hne
  simp [joinParts]

theorem modulePath_eq_some {w : List Char} (h : modulePath cs = some (w, rest)) :
    IsModulePath w ∧ rest.head?.any isWordChar = false ∧ cs = w ++ rest := by
  obtain ⟨⟨modules, behind⟩, hmodules, h⟩ := Option.bind_eq_some_iff.mp h
  obtain ⟨⟨owner, behind'⟩, howner, h⟩ := Option.bind_eq_some_iff.mp h
  obtain ⟨⟨parts, behind''⟩, hparts, h⟩ := Option.bind_eq_some_iff.mp h
  obtain ⟨⟨kept, rest'⟩, hkept, h⟩ := Option.bind_eq_some_iff.mp h
  cases h
  obtain ⟨hlower, hcs⟩ := manyUpTo_eq_some (t := id) (fun _ _ _ => module_eq_some) hmodules
  obtain ⟨hname, hbehind⟩ := word_eq_some (fun _ => isNameChar_of_isUpper) (fun _ => id) howner
  obtain ⟨hnames, hbehind'⟩ := parts_eq_some (fun _ => isNameChar_of_isNameStart) hparts hkept
  obtain ⟨hne, hrest⟩ := wholeParts_eq_some_iff.mp hkept
  refine ⟨⟨modules, owner, kept, rfl, hlower, hname, hne, hnames⟩, ?_, ?_⟩
  · rcases hrest with ⟨hbound, -, rfl⟩ | ⟨-, last, -, rfl⟩
    · exact hbound
    · rfl
  · simp only [hcs, hbehind, hbehind', joinParts, List.append_assoc, List.flatMap_id]

theorem takesPath_modulePath : TakesPath isNameStart modulePath := by
  intro cs w rest h
  obtain ⟨hpath, -, hcs⟩ := modulePath_eq_some h
  exact ⟨hpath.isPath, hcs⟩

theorem takesPath_member : TakesPath isLowerStart member := by
  intro cs w rest h
  obtain ⟨⟨owner, behind⟩, howner, h⟩ := Option.bind_eq_some_iff.mp h
  obtain ⟨⟨name, behind'⟩, hname, h⟩ := Option.bind_eq_some_iff.mp h
  obtain ⟨⟨u, rest'⟩, hend, h⟩ := Option.bind_eq_some_iff.mp h
  cases h
  obtain rfl := wordEnd_eq_some hend
  obtain ⟨howner, hcs⟩ := word_eq_some (fun _ => isNameChar_of_isUpper) (fun _ => id) howner
  obtain ⟨hname, hbehind⟩ := part_eq_some (fun _ => isNameChar_of_isLowerStart) hname
  refine ⟨⟨owner, [name], rfl, howner.mono fun _ => isNameStart_of_isUpper, by simpa using hname⟩, ?_⟩
  simp [hcs, hbehind, joinParts]

/-- A whole word is a path without a dot. -/
theorem takesPath_word {start next : Char → Bool} (hstart : ∀ c, start c = true → isNameStart c = true)
    (hnext : ∀ c, next c = true → isNameChar c = true) :
    TakesPath first (do
      let w ← word start next
      wordEnd
      return w) := by
  intro cs w rest h
  obtain ⟨⟨v, behind⟩, hv, h⟩ := Option.bind_eq_some_iff.mp h
  obtain ⟨⟨u, rest'⟩, hend, h⟩ := Option.bind_eq_some_iff.mp h
  cases h
  obtain rfl := wordEnd_eq_some hend
  obtain ⟨hname, hcs⟩ := word_eq_some (fun c hc => isNameChar_of_isNameStart (hstart c hc)) hnext hv
  refine ⟨⟨w, [], ?_, hname.mono hstart, fun part hpart => absurd hpart List.not_mem_nil⟩, hcs⟩
  simp [joinParts]

theorem takesPath_typeName : TakesPath first typeName :=
  takesPath_word (fun _ => isNameStart_of_isUpper) fun _ => id

theorem takesPath_variableName : TakesPath first variableName :=
  takesPath_word (fun _ => isNameStart_of_isLowerStart) fun _ => isNameChar_of_isLowerChar

end Scans

/-! ### What scans find -/

section Found

variable {r : Reader (List Char)} {w : List Char}

theorem mem_wordsOf {s : String} {cs : List Char} :
    s ∈ wordsOf r cs ↔ ∃ o ∈ occurrences (atWordStart r) cs, String.ofList o.value = s := by
  simp [wordsOf, found]

/-- Whatever a scan finds is a path. -/
theorem isPath_of_mem_wordsOf {first : Char → Bool} (htakes : TakesPath first r) {cs : List Char}
    (h : String.ofList w ∈ wordsOf r cs) : IsPath first w := by
  obtain ⟨o, ho, heq⟩ := mem_wordsOf.mp h
  obtain ⟨i, b, rest, -, hread⟩ := mem_occurrencesFrom ho
  have hpath := (htakes _ _ _ (atWordStart_eq_some hread)).1
  rwa [String.ofList_injective heq] at hpath

theorem TakesPath.spares_blank {first : Char → Bool} (htakes : TakesPath first r) {d : Char} (hd : isBlank d = true)
    (b : Option Char) (cs a rest : List Char) (h : atWordStart r b cs = some (a, rest)) :
    ∃ taken, cs = taken ++ rest ∧ d ∉ taken := by
  obtain ⟨hpath, heq⟩ := htakes _ _ _ (atWordStart_eq_some h)
  refine ⟨a, heq, fun hmem => ?_⟩
  rw [hpath.isBlank_eq_false hmem] at hd
  cases hd

/-- A path behind a blank is found if the reader takes it. -/
theorem mem_wordsOf_of_blank {first : Char → Bool} (htakes : TakesPath first r) {front post : List Char}
    (hfront : ∀ c ∈ front.getLast?, isBlank c = true) (hread : r (w ++ post) = some (w, post)) :
    String.ofList w ∈ wordsOf r (front ++ (w ++ post)) := by
  obtain ⟨c, run, rfl⟩ : ∃ c run, w = c :: run := by
    obtain ⟨owner, parts, heq, howner, -⟩ := (htakes _ _ _ hread).1
    obtain ⟨c, run, rfl, -⟩ := howner.exists_cons
    exact ⟨c, _, heq⟩
  refine mem_wordsOf.mpr ?_
  rcases List.eq_nil_or_concat front with rfl | ⟨before, d, rfl⟩
  · exact ⟨⟨0, c :: run⟩, mem_occurrencesFrom_of_read hread rfl 0, rfl⟩
  · have hblank : isBlank d = true := hfront d (by simp)
    have hbehind : (some d).any isWordChar = false := isWordChar_eq_false_of_isBlank hblank
    obtain ⟨os, hos⟩ :=
      occurrencesFrom_append (htakes.spares_blank hblank) before (c :: run ++ post) none 0 (Nat.zero_le _)
    refine ⟨⟨0 + before.length + 1, c :: run⟩, ?_, rfl⟩
    rw [List.concat_eq_append, List.append_assoc, occurrences]
    exact hos ▸ List.mem_append_right os (mem_occurrencesFrom_of_read hread hbehind _)

end Found

/-! ### Members between blanks -/

section Members

variable {owner own post : List Char}

theorem wordEnd_of_blank (hpost : ∀ c ∈ post.head?, isBlank c = true) : wordEnd post = some ((), post) := by
  cases post with
  | nil => rfl
  | cons c post => simp [wordEnd, isWordChar_eq_false_of_isBlank (hpost c rfl)]

theorem part_of_blank (hpost : ∀ c ∈ post.head?, isBlank c = true) : part first post = none := by
  refine bind_eq_none ?_
  cases post with
  | nil => rfl
  | cons c post =>
    have hc : '.' ≠ c := by
      rintro rfl
      exact absurd (hpost '.' rfl) (by decide)
    simp [literal, dropLead?, hc]

theorem part_append (hown : NameFrom first own) (hpost : ∀ c ∈ post.head?, isBlank c = true) :
    part first ('.' :: (own ++ post)) = some (own, post) :=
  word_append hown fun c hc => isNameChar_eq_false_of_isBlank (hpost c hc)

theorem typeWord_append (howner : NameFrom Char.isUpper owner) :
    typeWord (owner ++ '.' :: post) = some (owner, '.' :: post) := by
  refine word_append howner fun c hc => ?_
  cases hc
  rfl

theorem many_part_append (hown : NameFrom first own) (hpost : ∀ c ∈ post.head?, isBlank c = true) :
    many (part first) ('.' :: (own ++ post)) = some ([own], post) := by
  rw [many, List.length_cons, manyUpTo, part_append hown hpost]
  simp [manyUpTo_of_none (part_of_blank hpost)]

theorem wholeParts_single (hpost : ∀ c ∈ post.head?, isBlank c = true) :
    wholeParts [own] post = some ([own], post) := by
  simp [wholeParts, wordEnd_of_blank hpost]

theorem memberChain_append (howner : NameFrom Char.isUpper owner) (hown : NameFrom isLowerStart own)
    (hpost : ∀ c ∈ post.head?, isBlank c = true) :
    memberChain (owner ++ '.' :: own ++ post) = some (owner ++ '.' :: own, post) := by
  rw [List.append_assoc, List.cons_append, memberChain, bind_eq_of_some (typeWord_append howner),
    bind_eq_of_some (many_part_append hown hpost), bind_eq_of_some (wholeParts_single hpost)]
  change some (joinParts owner [own], post) = _
  simp [joinParts]

theorem modulePath_append (howner : NameFrom Char.isUpper owner) (hown : NameFrom isNameStart own)
    (hpost : ∀ c ∈ post.head?, isBlank c = true) :
    modulePath (owner ++ '.' :: own ++ post) = some (owner ++ '.' :: own, post) := by
  obtain ⟨c, run, heq, hc, -⟩ := howner.exists_cons
  -- a capital is no module, so none stands in front
  have hlower : lowerWord (owner ++ '.' :: (own ++ post)) = none := by
    rw [heq]
    exact bind_eq_none (by simp [one, isLowerStart_eq_false_of_isUpper hc])
  rw [List.append_assoc, List.cons_append, modulePath, bind_eq_of_some (many_of_none (bind_eq_none hlower)),
    bind_eq_of_some (typeWord_append howner), bind_eq_of_some (many_part_append hown hpost),
    bind_eq_of_some (wholeParts_single hpost)]
  change some (joinParts owner [own], post) = _
  simp [joinParts]

theorem mem_sortedDistinct {s : String} {names : List String} : s ∈ sortedDistinct names ↔ s ∈ names := by
  rw [sortedDistinct, List.mem_mergeSort, List.mem_eraseDups]

/-- A member is mentioned where it stands between blanks exactly if its own name does not begin with a digit. -/
theorem mem_mentioned_iff (howner : NameFrom Char.isUpper owner) (hown : IsName own) {front : List Char}
    (hfront : ∀ c ∈ front.getLast?, isBlank c = true) (hpost : ∀ c ∈ post.head?, isBlank c = true) :
    String.ofList (owner ++ '.' :: own) ∈ mentioned (String.ofList (front ++ (owner ++ '.' :: own ++ post))) ↔
      own.head?.any isNameStart = true := by
  rw [mentioned, mem_sortedDistinct, String.toList_ofList, List.mem_append, List.mem_append, List.mem_filter]
  constructor
  · intro h
    have hpath : IsPath isNameStart (owner ++ '.' :: own) := by
      rcases h with (h | h) | h
      · exact isPath_of_mem_wordsOf takesPath_modulePath h
      · exact isPath_of_mem_wordsOf takesPath_typeName h.1
      · exact (isPath_of_mem_wordsOf takesPath_member h).mono fun _ => isNameStart_of_isLowerStart
    exact (hpath.nameFrom_own (howner.name.not_mem rfl) (hown.not_mem rfl)).head
  · intro h
    have hread := modulePath_append howner ⟨h, hown⟩ hpost
    exact Or.inl (Or.inl (mem_wordsOf_of_blank takesPath_modulePath hfront hread))

/-- A member is referred to where it stands between blanks exactly if its own name begins in lower case. -/
theorem mem_referenced_iff (howner : NameFrom Char.isUpper owner) (hown : IsName own) {front : List Char}
    (hfront : ∀ c ∈ front.getLast?, isBlank c = true) (hpost : ∀ c ∈ post.head?, isBlank c = true) :
    String.ofList (owner ++ '.' :: own) ∈ referenced (String.ofList (front ++ (owner ++ '.' :: own ++ post))) ↔
      own.head?.any isLowerStart = true := by
  rw [referenced, mem_sortedDistinct, String.toList_ofList, List.mem_append, List.mem_append, List.mem_filter,
    List.mem_filter]
  constructor
  · intro h
    have hpath : IsPath isLowerStart (owner ++ '.' :: own) := by
      rcases h with (h | h) | h
      · exact isPath_of_mem_wordsOf takesPath_memberChain h
      · exact isPath_of_mem_wordsOf takesPath_typeName h.1
      · exact isPath_of_mem_wordsOf takesPath_variableName h.1
    exact (hpath.nameFrom_own (howner.name.not_mem rfl) (hown.not_mem rfl)).head
  · intro h
    have hread := memberChain_append howner ⟨h, hown⟩ hpost
    exact Or.inl (Or.inl (mem_wordsOf_of_blank takesPath_memberChain hfront hread))

end Members

end Identifier

namespace SourceFile

/-- A member of a type with a plain name, where a text has its name between blanks. The names that a source mentions
    have it exactly if its own name begins with no digit, and those that a text refers to exactly if it begins in lower
    case. Only a constant in an attributes block can fail to. -/
theorem member_found_iff {file : SourcePath} {text : List Char} {d : Declaration}
    (hd : d ∈ (ofText file text).declarations) (hmember : d.item.kind.isQualifiedMember = true) (owner own : List Char)
    (howner : NameFrom Char.isUpper owner) (hname : d.name = String.ofList (owner ++ '.' :: own)) (front post : String)
    (hfront : ∀ c ∈ front.toList.getLast?, isBlank c = true) (hpost : ∀ c ∈ post.toList.head?, isBlank c = true) :
    (d.name ∈ Identifier.mentioned (front ++ d.name ++ post) ↔ own.head?.any isNameStart = true) ∧
      (d.name ∈ Identifier.referenced (front ++ d.name ++ post) ↔ own.head?.any isLowerStart = true) ∧
        (d.item.kind ≠ .attributeConstant →
          d.name ∈ Identifier.mentioned (front ++ d.name ++ post) ∧
            d.name ∈ Identifier.referenced (front ++ d.name ++ post)) := by
  obtain ⟨⟨number, -, hat⟩, -⟩ := declaredIn_of_mem hd
  obtain ⟨type, own', htype, hown, heq⟩ := hat.one_dot hmember
  -- the first dot divides the name in one way only
  obtain rfl : own' = own := by
    have hread : upTo '.' d.name.toList = some (type, own') := upTo_eq_some.mpr ⟨htype, heq⟩
    rw [hname, String.toList_ofList, upTo_eq_some.mpr ⟨howner.name.not_mem rfl, rfl⟩] at hread
    cases hread
    rfl
  have hsource : front ++ d.name ++ post =
      String.ofList (front.toList ++ (owner ++ '.' :: own' ++ post.toList)) := by
    simp [hname, String.append_assoc]
  rw [hsource, hname]
  have hmentioned := Identifier.mem_mentioned_iff howner hown.name hfront hpost
  have hreferenced := Identifier.mem_referenced_iff howner hown.name hfront hpost
  refine ⟨hmentioned, hreferenced, fun hkind => ?_⟩
  have hlower : NameFrom isLowerStart own' := Kind.memberStart_of_ne hkind ▸ hown
  exact ⟨hmentioned.mpr (hlower.mono fun _ => isNameStart_of_isLowerStart).head, hreferenced.mpr hlower.head⟩

/-- A constant called by a numeral is found nowhere, and a method of the same block is found by both scans. -/
theorem member_found_iff_numeral :
    let text := fileText (["attributes Real \x7b", "    let 0: Real = zero", "    define neg(self) -> Real \x7b",
      "        Real.0 - self", "    \x7d", "\x7d"].map String.toList)
    ∃ zero ∈ (ofText ⟨0, ["real.ac"]⟩ text).declarations, ∃ neg ∈ (ofText ⟨0, ["real.ac"]⟩ text).declarations,
      zero.name = "Real.0" ∧ zero.item.kind = .attributeConstant ∧
        "Real.0" ∉ Identifier.mentioned "x < Real.0 + y" ∧ "Real.0" ∉ Identifier.referenced "x < Real.0 + y" ∧
        neg.name = "Real.neg" ∧ "Real.neg" ∈ Identifier.mentioned "Real.neg = f" ∧
          "Real.neg" ∈ Identifier.referenced "Real.neg = f" := by
  intro text
  obtain ⟨zero, neg, hds, hzero, hconstant, hneg, hmethod⟩ :
      ∃ zero neg, (ofText ⟨0, ["real.ac"]⟩ text).declarations = [zero, neg] ∧ zero.name = "Real.0" ∧
        zero.item.kind = .attributeConstant ∧ neg.name = "Real.neg" ∧ neg.item.kind = .attributeMethod :=
    ⟨_, _, rfl, rfl, rfl, rfl, rfl⟩
  have hmem : zero ∈ (ofText ⟨0, ["real.ac"]⟩ text).declarations := hds ▸ List.mem_cons_self ..
  have hmem' : neg ∈ (ofText ⟨0, ["real.ac"]⟩ text).declarations := hds ▸ List.mem_cons_of_mem _ (List.mem_cons_self ..)
  have howner : NameFrom Char.isUpper "Real".toList := ⟨by decide, by decide⟩
  have hspace : ∀ c ∈ some ' ', isBlank c = true := fun c hc => Option.some.inj hc ▸ rfl
  obtain ⟨hmentioned, hreferenced, -⟩ := member_found_iff hmem (by rw [hconstant]; rfl) "Real".toList "0".toList howner
    hzero "x < " " + y" hspace hspace
  obtain ⟨-, -, hfound⟩ := member_found_iff hmem' (by rw [hmethod]; rfl) "Real".toList "neg".toList howner hneg
    "" " = f" (fun c hc => nomatch hc) hspace
  have hlower := hfound (by rw [hmethod]; decide)
  rw [hzero] at hmentioned hreferenced
  rw [hneg] at hlower
  exact ⟨zero, hmem, neg, hmem', hzero, hconstant, fun h => absurd (hmentioned.mp h) (by decide),
    fun h => absurd (hreferenced.mp h) (by decide), hneg, hlower⟩

end SourceFile

end AcornCatalog
