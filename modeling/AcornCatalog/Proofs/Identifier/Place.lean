import AcornCatalog.Proofs.Identifier.Mention
import AcornCatalog.Proofs.Text.LineScan

/-! Where names are mentioned. A search for names with a capital in front is free wherever a word begins with one, for
what it takes has capitals only within words; so the mentions are just the types and the longest chains of members that
stand in a line as whole words. No name crosses a line feed, so that a text refers to the same names, but for the types
every module knows. -/

namespace AcornCatalog.Identifier

open Text Reader Header

/-- A type and members in lower case behind it, at least one. -/
def IsChain (w : List Char) : Prop :=
  ∃ owner parts, w = joinParts owner parts ∧ NameFrom Char.isUpper owner ∧ parts ≠ [] ∧
    ∀ part ∈ parts, NameFrom isLowerStart part

/-- No further member of a chain stands there as a whole word. -/
def EndsChain (post : List Char) : Prop :=
  ∀ part more, post = '.' :: part ++ more → NameFrom isLowerStart part → more.head?.any isWordChar = true

/-- The name stands in the line with `post` behind it, and no word goes on at its ends. -/
def StandsAt (line : Line) (column : Nat) (name post : List Char) : Prop :=
  ∃ front, line = front ++ name ++ post ∧ front.length = column ∧ front.getLast?.any isWordChar = false ∧
    post.head?.any isWordChar = false

/-- What a name that is used so looks like, with `post` behind it. -/
def Usage.Fits : Usage → List Char → List Char → Prop
  | .reference, name, post => IsChain name ∧ EndsChain post
  | .type, name, _ => NameFrom Char.isUpper name ∧ String.ofList name ∉ truthWords

section Readers

variable {cs w rest : List Char}

theorem isNameChar_eq_false_of_bound (h : rest.head?.any isWordChar = false) :
    ∀ c ∈ rest.head?, isNameChar c = false := by
  intro c hc
  rw [Option.mem_def.mp hc] at h
  refine Bool.eq_false_iff.mpr fun hname => ?_
  rw [Option.any_some, isWordChar_of_isNameChar hname] at h
  cases h

theorem typeName_eq_some_iff :
    typeName cs = some (w, rest) ↔
      NameFrom Char.isUpper w ∧ rest.head?.any isWordChar = false ∧ cs = w ++ rest := by
  constructor
  · intro h
    obtain ⟨⟨v, behind⟩, hv, h⟩ := Option.bind_eq_some_iff.mp h
    obtain ⟨⟨u, behind'⟩, hend, h⟩ := Option.bind_eq_some_iff.mp h
    cases h
    obtain ⟨hbound, rfl⟩ := wordEnd_eq_some_iff.mp hend
    obtain ⟨hname, hcs⟩ := word_eq_some (fun _ => isNameChar_of_isUpper) (fun _ => id) hv
    exact ⟨hname, hbound, hcs⟩
  · rintro ⟨hname, hbound, rfl⟩
    have hword : typeWord (w ++ rest) = some (w, rest) := word_append hname (isNameChar_eq_false_of_bound hbound)
    rw [typeName, bind_eq_of_some hword, bind_eq_of_some (wordEnd_eq_some_iff (u := ()).mpr ⟨hbound, rfl⟩)]
    rfl

/-! ### Chains of members -/

theorem advances_part (first : Char → Bool) : Advances (part first) :=
  .bind (.literal (by decide)) fun _ => .word

/-- Where members have been read as long as there are any, none comes next, and the last has been read whole. -/
theorem many_part_stops {first : Char → Bool} (hfirst : ∀ c, first c = true → isNameChar c = true)
    {parts : List (List Char)} (h : many (part first) cs = some (parts, rest)) :
    part first rest = none ∧ (parts ≠ [] → ∀ c ∈ rest.head?, isNameChar c = false) := by
  induction parts generalizing cs with
  | nil =>
    refine ⟨?_, fun hne => absurd rfl hne⟩
    cases hread : part first cs with
    | none =>
      rw [many_of_none hread] at h
      cases h
      exact hread
    | some read =>
      rw [many_of_some (advances_part first) hread] at h
      obtain ⟨more, -, heq⟩ := Option.map_eq_some_iff.mp h
      cases heq
  | cons p parts ih =>
    cases hread : part first cs with
    | none =>
      rw [many_of_none hread] at h
      cases h
    | some read =>
      obtain ⟨a, behind⟩ := read
      rw [many_of_some (advances_part first) hread] at h
      obtain ⟨⟨more, left⟩, hmore, heq⟩ := Option.map_eq_some_iff.mp h
      cases heq
      obtain ⟨hnone, hstops⟩ := ih hmore
      refine ⟨hnone, fun _ => ?_⟩
      -- the last is among those behind the first, or it is the first
      by_cases hmembers : more = []
      · subst hmembers
        obtain ⟨-, hcs⟩ := manyUpTo_eq_some (t := ('.' :: ·)) (fun _ _ _ => part_eq_some hfirst) hmore
        obtain rfl : behind = left := hcs
        exact ((part_eq_some_iff hfirst).mp hread).2.1
      · exact hstops hmembers

/-- Members are read one after the other, up to where the last of them ends. -/
theorem many_part_append_members {first : Char → Bool} (hfirst : ∀ c, first c = true → isNameChar c = true)
    {parts : List (List Char)} (hparts : ∀ p ∈ parts, NameFrom first p)
    (hrest : ∀ c ∈ rest.head?, isNameChar c = false) :
    many (part first) (parts.flatMap ('.' :: ·) ++ rest) =
      (many (part first) rest).map fun read => (parts ++ read.1, read.2) := by
  induction parts with
  | nil => simp
  | cons p parts ih =>
    obtain ⟨hp, hparts⟩ := List.forall_mem_cons.mp hparts
    have hstop : ∀ c ∈ (parts.flatMap ('.' :: ·) ++ rest).head?, isNameChar c = false := by
      cases parts with
      | nil => exact hrest
      | cons q parts =>
        intro c hc
        obtain rfl := Option.some.inj hc
        rfl
    have hread : part first ((p :: parts).flatMap ('.' :: ·) ++ rest) = some (p, parts.flatMap ('.' :: ·) ++ rest) :=
      (part_eq_some_iff hfirst).mpr ⟨hp, hstop, by simp⟩
    rw [many_of_some (advances_part first) hread, ih hparts, Option.map_map]
    rfl

theorem part_ne_none {part' more : List Char} (h : NameFrom isLowerStart part') :
    part isLowerStart ('.' :: part' ++ more) ≠ none := by
  obtain ⟨c, run, rfl, hc, -⟩ := h.exists_cons
  have hword : word isLowerStart isNameChar (c :: run ++ more) =
      some (c :: (run ++ more).takeWhile isNameChar, (run ++ more).dropWhile isNameChar) := by
    rw [List.cons_append, word, bind_eq_of_some (one_eq_some.mpr ⟨hc, rfl⟩)]
    rfl
  intro hnone
  cases hword.symm.trans hnone

/-- A member that is followed by a word character of another kind ends the chain in front of it. -/
theorem endsChain_of_glued {last behind : List Char} (hlast : IsName last)
    (hname : ∀ c ∈ behind.head?, isNameChar c = false) (hglued : behind.head?.any isWordChar = true) :
    EndsChain ('.' :: last ++ behind) := by
  intro part more heq hpart
  have hsplit : last ++ behind = part ++ more := (List.cons.inj heq).2
  rcases List.append_eq_append_iff.mp hsplit with ⟨z, rfl, hz⟩ | ⟨z, rfl, rfl⟩
  · cases z with
    | nil =>
      obtain rfl : behind = more := hz
      exact hglued
    | cons c z =>
      have hc := hname c (hz ▸ rfl)
      rw [hpart.name c (by simp)] at hc
      cases hc
  · cases z with
    | nil => exact hglued
    | cons c z => exact isWordChar_of_isNameChar (hlast c (by simp))

theorem memberChain_eq_some_iff :
    memberChain cs = some (w, rest) ↔
      IsChain w ∧ EndsChain rest ∧ rest.head?.any isWordChar = false ∧ cs = w ++ rest := by
  have hlower : ∀ c, isLowerStart c = true → isNameChar c = true := fun _ => isNameChar_of_isLowerStart
  constructor
  · intro h
    obtain ⟨⟨owner, behind⟩, howner, h⟩ := Option.bind_eq_some_iff.mp h
    obtain ⟨⟨parts, behind'⟩, hmany, h⟩ := Option.bind_eq_some_iff.mp h
    obtain ⟨⟨kept, rest'⟩, hkept, h⟩ := Option.bind_eq_some_iff.mp h
    cases h
    obtain ⟨hname, hcs⟩ := word_eq_some (fun _ => isNameChar_of_isUpper) (fun _ => id) howner
    obtain ⟨hnames, hbehind⟩ := parts_eq_some hlower hmany hkept
    have hsplit : cs = joinParts owner kept ++ rest := by
      rw [hcs, hbehind, joinParts, List.append_assoc]
    obtain ⟨hnone, hstops⟩ := many_part_stops hlower hmany
    obtain ⟨hne, ⟨hbound, rfl, rfl⟩ | ⟨hglued, last, rfl, rfl⟩⟩ := wholeParts_eq_some_iff.mp hkept
    · refine ⟨⟨owner, parts, rfl, hname, hne, hnames⟩, fun part more heq hpart => ?_, hbound, hsplit⟩
      rw [heq] at hnone
      exact absurd hnone (part_ne_none hpart)
    · obtain ⟨hparts, -⟩ := manyUpTo_eq_some (t := ('.' :: ·)) (fun _ _ _ => part_eq_some hlower) hmany
      have hends := endsChain_of_glued (hparts last (by simp)).name (hstops (by simp)) hglued
      exact ⟨⟨owner, kept, rfl, hname, hne, hnames⟩, hends, rfl, hsplit⟩
  · rintro ⟨⟨owner, parts, rfl, howner, hne, hparts⟩, hends, hbound, rfl⟩
    have hrest := isNameChar_eq_false_of_bound hbound
    have htype : typeWord (joinParts owner parts ++ rest) = some (owner, parts.flatMap ('.' :: ·) ++ rest) := by
      obtain ⟨p, parts, rfl⟩ := List.exists_cons_of_ne_nil hne
      rw [joinParts, List.append_assoc]
      refine word_append howner fun c hc => ?_
      obtain rfl := Option.some.inj hc
      rfl
    rw [memberChain, bind_eq_of_some htype]
    cases hread : part isLowerStart rest with
    | none =>
      have hmany : many (part isLowerStart) (parts.flatMap ('.' :: ·) ++ rest) = some (parts, rest) := by
        rw [many_part_append_members hlower hparts hrest, many_of_none hread]
        simp
      have hwhole := wholeParts_eq_some_iff.mpr ⟨hne, Or.inl ⟨hbound, rfl, rfl⟩⟩
      rw [bind_eq_of_some hmany, bind_eq_of_some hwhole]
      rfl
    | some read =>
      obtain ⟨last, more⟩ := read
      obtain ⟨hlast, hmore, hcs⟩ := (part_eq_some_iff hlower).mp hread
      have hglued := hends last more hcs hlast
      -- the word goes on behind the member, with a character that no member has, so it is the last
      have hstop : part isLowerStart more = none := by
        cases hnext : part isLowerStart more with
        | none => rfl
        | some next =>
          obtain ⟨v, left⟩ := next
          obtain ⟨-, -, hdot⟩ := (part_eq_some_iff hlower).mp hnext
          rw [hdot] at hglued
          cases hglued
      have hmany : many (part isLowerStart) (parts.flatMap ('.' :: ·) ++ rest) = some (parts ++ [last], more) := by
        rw [many_part_append_members hlower hparts hrest, many_of_some (advances_part _) hread, many_of_none hstop]
        rfl
      have hwhole := wholeParts_eq_some_iff.mpr ⟨hne, Or.inr ⟨hglued, last, rfl, hcs.symm⟩⟩
      rw [bind_eq_of_some hmany, bind_eq_of_some hwhole]
      rfl

end Readers

/-! ### Lines -/

section Lines

variable {more : List Char}

theorem steady_typeWord : Steady (AtLineEnd more) typeWord := .word (passes_atLineEnd rfl) (passes_atLineEnd rfl)

theorem keepsToLine_typeName : KeepsToLine typeName where
  steady _ := .bind steady_typeWord fun _ => .bind steady_wordEnd fun _ => .pure _
  refuses := rfl

theorem steady_dot : Steady (AtLineEnd more) (literal ".") := by
  refine .literal fun c hc => passes_atLineEnd ?_
  obtain rfl := List.mem_singleton.mp hc
  rfl

theorem steady_part {first : Char → Bool} (hfirst : first '\n' = false) : Steady (AtLineEnd more) (part first) :=
  .bind steady_dot fun _ => .word (passes_atLineEnd hfirst) (passes_atLineEnd rfl)

theorem steady_wholeParts (parts : List (List Char)) : Steady (AtLineEnd more) (wholeParts parts) := by
  rintro code tail rfl
  have hend : (wordEnd (code ++ '\n' :: more)).isSome = (wordEnd code).isSome := by
    rcases steady_wordEnd code _ rfl with ⟨hcode, hboth⟩ | ⟨u, rest, tail, -, hcode, hboth⟩
    · rw [hcode, hboth]
    · rw [hcode, hboth, Option.isSome_some, Option.isSome_some]
  unfold wholeParts
  rw [hend]
  split
  · split
    · exact Or.inl ⟨rfl, rfl⟩
    · exact Or.inr ⟨parts, code, _, rfl, rfl, rfl⟩
  · split
    · exact Or.inl ⟨rfl, rfl⟩
    · next last _ =>
      split
      · exact Or.inl ⟨rfl, rfl⟩
      · exact Or.inr ⟨parts.dropLast, '.' :: last ++ code, _, rfl, rfl, by rw [List.append_assoc]⟩

theorem keepsToLine_memberChain : KeepsToLine memberChain where
  steady _ := .bind steady_typeWord fun _ => .bind (.many (steady_part rfl) (advances_part _)) fun parts =>
    .bind (steady_wholeParts parts) fun _ => .pure _
  refuses := rfl

theorem wordsOf_eq_flatMap_cut {r : Reader (List Char)} (h : KeepsToLine r) (cs : List Char) :
    wordsOf r cs = (cut '\n' cs).flatMap (wordsOf r) := by
  rw [wordsOf, found_eq_flatMap_cut h, List.map_flatMap]
  rfl

end Lines

/-! ### Words with a capital in front -/

section Capitals

variable {r : Reader (List Char)} {c : Char}

theorem any_getLast?_append {p : Char → Bool} {z : List Char} (h : z.getLast?.any p = true) (x : List Char) :
    (x ++ z).getLast?.any p = true := by
  obtain ⟨d, hd, hp⟩ := (Option.any_eq_true ..).mp h
  rw [List.getLast?_append, hd]
  exact hp

/-- Within a name something of it stands in front of a character that the name cannot begin with. -/
theorem NameFrom.any_before {first : Char → Bool} {w x y : List Char} (hw : NameFrom first w) (heq : w = x ++ c :: y)
    (hc : first c = false) : x.getLast?.any isNameChar = true := by
  rcases List.eq_nil_or_concat x with rfl | ⟨x, d, rfl⟩
  · have hhead := hw.head
    rw [heq, List.nil_append, List.head?_cons, Option.any_some, hc] at hhead
    cases hhead
  · rw [List.concat_eq_append, List.getLast?_concat, Option.any_some]
    exact hw.name d (by simp [heq])

theorem any_before_of_parts {parts : List (List Char)} (hparts : ∀ p ∈ parts, NameFrom isLowerStart p)
    {x y : List Char} (heq : parts.flatMap ('.' :: ·) = x ++ c :: y) (hc : c.isUpper = true) :
    x.getLast?.any isNameChar = true := by
  induction parts generalizing x with
  | nil => simp at heq
  | cons p parts ih =>
    obtain ⟨hp, hparts⟩ := List.forall_mem_cons.mp hparts
    cases x with
    | nil =>
      obtain ⟨rfl, -⟩ := List.cons.inj heq
      cases hc
    | cons d x =>
      have htail : p ++ parts.flatMap ('.' :: ·) = x ++ c :: y := (List.cons.inj heq).2
      refine any_getLast?_append ?_ [d]
      rcases List.append_eq_append_iff.mp htail with ⟨z, rfl, hz⟩ | ⟨z, hz, hnext⟩
      · exact any_getLast?_append (ih hparts hz) p
      · cases z with
        | nil => cases ih (x := []) hparts hnext.symm
        | cons e z =>
          obtain ⟨rfl, -⟩ := List.cons.inj hnext
          exact NameFrom.any_before hp hz (isLowerStart_eq_false_of_isUpper hc)

/-- In a path whose parts begin in lower case, a capital that is not the first character of all stands within a word. -/
theorem IsPath.any_before_capital {w x y : List Char} (h : IsPath isLowerStart w) (heq : w = x ++ c :: y)
    (hc : c.isUpper = true) (hx : x ≠ []) : x.getLast?.any isWordChar = true := by
  suffices x.getLast?.any isNameChar = true by
    obtain ⟨d, hd, hname⟩ := (Option.any_eq_true ..).mp this
    exact (Option.any_eq_true ..).mpr ⟨d, hd, isWordChar_of_isNameChar hname⟩
  obtain ⟨owner, parts, rfl, howner, hparts⟩ := h
  rcases List.append_eq_append_iff.mp heq with ⟨z, rfl, hz⟩ | ⟨z, hz, hnext⟩
  · exact any_getLast?_append (any_before_of_parts hparts hz hc) owner
  · obtain ⟨x, d, rfl⟩ := (List.eq_nil_or_concat x).resolve_left hx
    rw [List.concat_eq_append, List.getLast?_concat, Option.any_some]
    exact howner.name d (by simp [hz])

/-- A search for such paths is free wherever a word begins with a capital. -/
theorem free_of_capital (htakes : TakesPath isLowerStart r) {front rest : List Char} (hc : c.isUpper = true)
    (hfront : front.getLast?.any isWordChar = false) : Free (atWordStart r) front (c :: rest) := by
  by_contra hbusy
  obtain ⟨upper, lower, w, left, rfl, hne, -, hread, hlength, -⟩ := exists_reaching hbusy
  obtain ⟨hpath, hsplit⟩ := htakes _ _ _ (atWordStart_eq_some hread)
  -- what is taken there goes on beyond the capital
  have htaken : ∃ y, w = lower ++ c :: y := by
    rcases List.append_eq_append_iff.mp hsplit with ⟨z, rfl, hz⟩ | ⟨z, hz, rfl⟩
    · cases z with
      | nil =>
        rw [show left = c :: rest from hz.symm] at hlength
        exact absurd hlength (Nat.lt_irrefl _)
      | cons d z =>
        obtain ⟨rfl, -⟩ := List.cons.inj hz
        exact ⟨z, rfl⟩
    · rw [List.length_append] at hlength
      exact absurd hlength (Nat.not_lt.mpr (Nat.le_add_left _ _))
  obtain ⟨y, hy⟩ := htaken
  have hword := any_getLast?_append (hpath.any_before_capital hy hc hne) upper
  rw [hfront] at hword
  cases hword

/-- What is found of such paths, if they begin with a capital, is what is read wherever a word begins. -/
theorem mem_occurrences_capital_iff (htakes : TakesPath isLowerStart r)
    (hcapital : Reads r fun w => w.head?.any Char.isUpper = true) {line : Line} {o : Occurrence (List Char)} :
    o ∈ occurrences (atWordStart r) line ↔
      ∃ front post, line = front ++ o.value ++ post ∧ front.length = o.column ∧
        front.getLast?.any isWordChar = false ∧ r (o.value ++ post) = some (o.value, post) := by
  rw [mem_occurrences_iff]
  constructor
  · rintro ⟨front, rest, post, rfl, -, hcolumn, -, hread⟩
    obtain ⟨hfront, hread⟩ := atWordStart_eq_some_iff.mp hread
    obtain ⟨-, rfl⟩ := htakes _ _ _ hread
    exact ⟨front, post, (List.append_assoc ..).symm, hcolumn.symm, hfront, hread⟩
  · rintro ⟨front, post, rfl, hcolumn, hfront, hread⟩
    have hhead := hcapital _ _ _ hread
    obtain ⟨column, value⟩ := o
    cases value with
    | nil => cases hhead
    | cons c run =>
      exact ⟨front, c :: run ++ post, post, List.append_assoc .., List.cons_ne_nil _ _, hcolumn.symm,
        free_of_capital htakes hhead hfront, atWordStart_eq_some_iff.mpr ⟨hfront, hread⟩⟩

/-- What is found of such paths stands in the line with no word going on at its ends, and is what the reader reads there;
    whatever stands so is found. -/
theorem mem_occurrences_standsAt_iff {Shape : List Char → List Char → Prop} (htakes : TakesPath isLowerStart r)
    (hreads : ∀ {cs w rest},
      r cs = some (w, rest) ↔ Shape w rest ∧ rest.head?.any isWordChar = false ∧ cs = w ++ rest)
    (hcapital : ∀ {w rest}, Shape w rest → w.head?.any Char.isUpper = true) {line : Line} {column : Nat}
    {w : List Char} :
    ⟨column, w⟩ ∈ occurrences (atWordStart r) line ↔ ∃ post, StandsAt line column w post ∧ Shape w post := by
  rw [mem_occurrences_capital_iff htakes fun _ _ _ hread => hcapital (hreads.mp hread).1]
  constructor
  · rintro ⟨front, post, hline, hcolumn, hfront, hread⟩
    obtain ⟨hshape, hpost, -⟩ := hreads.mp hread
    exact ⟨post, ⟨front, hline, hcolumn, hfront, hpost⟩, hshape⟩
  · rintro ⟨post, ⟨front, hline, hcolumn, hfront, hpost⟩, hshape⟩
    exact ⟨front, post, hline, hcolumn, hfront, hreads.mpr ⟨hshape, hpost, rfl⟩⟩

end Capitals

/-! ### Mentions -/

section Mentions

variable {r : Reader (List Char)} {line : Line} {column : Nat} {w : List Char} {scope name : String}

theorem IsChain.head (h : IsChain w) : w.head?.any Char.isUpper = true := by
  obtain ⟨owner, parts, rfl, howner, -⟩ := h
  obtain ⟨c, run, rfl, hc, -⟩ := howner.exists_cons
  exact hc

theorem IsChain.dot_mem (h : IsChain w) : '.' ∈ w := by
  obtain ⟨owner, parts, rfl, -, hne, -⟩ := h
  obtain ⟨p, parts, rfl⟩ := List.exists_cons_of_ne_nil hne
  simp [joinParts]

theorem reads_memberChain : Reads memberChain IsChain := fun _ _ _ h => (memberChain_eq_some_iff.mp h).1

theorem reads_typeName_capital : Reads typeName (NameFrom Char.isUpper) := fun _ _ _ h => (typeName_eq_some_iff.mp h).1

theorem reads_variableName_head : Reads variableName fun w => w.head?.any isLowerStart = true :=
  reads_word_head.andThen fun _ hw => .bind fun _ => .pure hw

theorem mem_occurrences_memberChain_iff :
    ⟨column, w⟩ ∈ occurrences (atWordStart memberChain) line ↔
      ∃ post, StandsAt line column w post ∧ IsChain w ∧ EndsChain post :=
  mem_occurrences_standsAt_iff takesPath_memberChain (memberChain_eq_some_iff.trans and_assoc.symm) fun h => h.1.head

theorem mem_occurrences_typeName_iff :
    ⟨column, w⟩ ∈ occurrences (atWordStart typeName) line ↔
      ∃ post, StandsAt line column w post ∧ NameFrom Char.isUpper w :=
  mem_occurrences_standsAt_iff takesPath_typeName typeName_eq_some_iff fun h => h.head

theorem mem_mentionsBy_iff {usage : Usage} {number : Nat} {m : Mention} :
    m ∈ mentionsBy r usage scope number line ↔
      m.usage = usage ∧ m.scope = scope ∧ m.line = number ∧
        ⟨m.column, m.name.toList⟩ ∈ occurrences (atWordStart r) line := by
  obtain ⟨name, usage', scope', number', column⟩ := m
  rw [mentionsBy, List.mem_map]
  constructor
  · rintro ⟨o, ho, heq⟩
    cases heq
    exact ⟨rfl, rfl, rfl, by rwa [String.toList_ofList]⟩
  · rintro ⟨rfl, rfl, rfl, ho⟩
    exact ⟨_, ho, by rw [String.ofList_toList]⟩

theorem mem_lineMentions_iff {number : Nat} {m : Mention} :
    m ∈ lineMentions scope number line ↔
      m.scope = scope ∧ m.line = number ∧
        ∃ post, StandsAt line m.column m.name.toList post ∧ m.usage.Fits m.name.toList post := by
  rw [lineMentions, List.mem_append, List.mem_filter, mem_mentionsBy_iff, mem_mentionsBy_iff,
    mem_occurrences_memberChain_iff, mem_occurrences_typeName_iff]
  obtain ⟨name, usage, scope', number', column⟩ := m
  cases usage with
  | reference => simp [Usage.Fits]
  | type => simp [Usage.Fits, and_assoc]

theorem mem_mentions_iff {source : String} {m : Mention} :
    m ∈ mentions source scope ↔
      m.scope = scope ∧ 1 ≤ m.line ∧ ∃ line post, (cut '\n' source.toList)[m.line - 1]? = some line ∧
        StandsAt line m.column m.name.toList post ∧ m.usage.Fits m.name.toList post := by
  rw [mentions, List.mem_flatMap]
  constructor
  · rintro ⟨⟨line, number⟩, hline, hm⟩
    obtain ⟨hone, hline⟩ := List.mk_mem_zipIdx_iff_le_and_getElem?_sub.mp hline
    obtain ⟨hscope, rfl, post, hm⟩ := mem_lineMentions_iff.mp hm
    exact ⟨hscope, hone, line, post, hline, hm⟩
  · rintro ⟨hscope, hone, line, post, hline, hm⟩
    exact ⟨(line, m.line), List.mk_mem_zipIdx_iff_le_and_getElem?_sub.mpr ⟨hone, hline⟩,
      mem_lineMentions_iff.mpr ⟨hscope, rfl, post, hm⟩⟩

/-! ### Names in a text -/

theorem map_name_lineMentions (scope : String) (number : Nat) (line : Line) :
    (lineMentions scope number line).map (·.name) =
      wordsOf memberChain line ++ (wordsOf typeName line).filter (!truthWords.contains ·) := by
  have hwords (r : Reader (List Char)) (usage : Usage) :
      (mentionsBy r usage scope number line).map (·.name) = wordsOf r line := by
    simp [mentionsBy, wordsOf, found, Function.comp_def]
  rw [lineMentions, List.map_append, hwords, ← hwords typeName .type, List.filter_map]
  rfl

theorem exists_mem_mentions_iff {source : String} :
    (∃ m ∈ mentions source scope, m.name = name) ↔
      name ∈ wordsOf memberChain source.toList ∨ name ∈ wordsOf typeName source.toList ∧ name ∉ truthWords := by
  have hlines : (mentions source scope).map (·.name) = (cut '\n' source.toList).flatMap fun line =>
      wordsOf memberChain line ++ (wordsOf typeName line).filter (!truthWords.contains ·) := by
    rw [mentions, List.map_flatMap]
    simp only [map_name_lineMentions]
    conv_rhs => rw [← List.zipIdx_map_fst 1 (cut '\n' source.toList), List.flatMap_map]
  rw [← List.mem_map, hlines, wordsOf_eq_flatMap_cut keepsToLine_memberChain,
    wordsOf_eq_flatMap_cut keepsToLine_typeName]
  simp only [List.mem_flatMap, List.mem_append, List.mem_filter, List.contains_eq_mem, Bool.not_eq_true',
    decide_eq_false_iff_not]
  constructor
  · rintro ⟨line, hline, hname | ⟨hname, htruth⟩⟩
    · exact Or.inl ⟨line, hline, hname⟩
    · exact Or.inr ⟨⟨line, hline, hname⟩, htruth⟩
  · rintro (⟨line, hline, hname⟩ | ⟨⟨line, hline, hname⟩, htruth⟩)
    · exact ⟨line, hline, Or.inl hname⟩
    · exact ⟨line, hline, Or.inr ⟨hname, htruth⟩⟩

theorem reads_of_mem_wordsOf {P : List Char → Prop} (h : Reads r P) {cs : List Char} (hname : name ∈ wordsOf r cs) :
    P name.toList := by
  obtain ⟨o, ho, rfl⟩ := mem_wordsOf.mp hname
  obtain ⟨i, b, rest, -, hread⟩ := mem_occurrencesFrom ho
  rw [String.toList_ofList]
  exact h _ _ _ (atWordStart_eq_some hread)

theorem mem_referenced_capital_iff {source : String} :
    name ∈ referenced source ∧ name.toList.head?.any Char.isUpper = true ↔
      name ∈ wordsOf memberChain source.toList ∨ name ∈ wordsOf typeName source.toList ∧ name ∉ familiarTypes := by
  rw [referenced, mem_sortedDistinct]
  simp only [List.mem_append, List.mem_filter, List.contains_eq_mem, Bool.not_eq_true',
    decide_eq_false_iff_not]
  constructor
  · rintro ⟨(hname | hname) | ⟨hname, -⟩, hcapital⟩
    · exact Or.inl hname
    · exact Or.inr hname
    · obtain ⟨c, hc, hlower⟩ := (Option.any_eq_true ..).mp (reads_of_mem_wordsOf reads_variableName_head hname)
      rw [hc, Option.any_some] at hcapital
      rw [isLowerStart_eq_false_of_isUpper hcapital] at hlower
      cases hlower
  · rintro (hname | hname)
    · exact ⟨Or.inl (Or.inl hname), (reads_of_mem_wordsOf reads_memberChain hname).head⟩
    · exact ⟨Or.inl (Or.inr hname), (reads_of_mem_wordsOf reads_typeName_capital hname.1).head⟩

end Mentions

/-- The names with a capital that a text refers to are those of its mentions, except for the bare names of three types.
    A mention is where its line has its name at its column, with no word character in front and none behind: every
    type's name that stands so, but for the truth values, and every chain of members that cannot be made longer. -/
theorem mentions_agree_with_referenced (source scope : String) :
    (∀ name, name ∈ referenced source ∧ name.toList.head?.any Char.isUpper = true ↔
      (∃ m ∈ mentions source scope, m.name = name) ∧ name ∉ ["Nat", "Int", "Real"]) ∧
    ∀ m, m ∈ mentions source scope ↔
      m.scope = scope ∧ 1 ≤ m.line ∧ ∃ line post, (cut '\n' source.toList)[m.line - 1]? = some line ∧
        StandsAt line m.column m.name.toList post ∧ m.usage.Fits m.name.toList post := by
  refine ⟨fun name => ?_, fun m => mem_mentions_iff⟩
  rw [mem_referenced_capital_iff, exists_mem_mentions_iff, familiarTypes, List.mem_append, not_or]
  constructor
  · rintro (hname | ⟨hname, htruth, hbare⟩)
    · refine ⟨Or.inl hname, fun hbare => ?_⟩
      have hdot := (reads_of_mem_wordsOf reads_memberChain hname).dot_mem
      have hnone : ∀ bare ∈ ["Nat", "Int", "Real"], '.' ∉ bare.toList := by decide
      exact hnone name hbare hdot
    · exact ⟨Or.inr ⟨hname, htruth⟩, hbare⟩
  · rintro ⟨hname | ⟨hname, htruth⟩, hbare⟩
    · exact Or.inl hname
    · exact Or.inr ⟨hname, htruth, hbare⟩

/-- The numeral behind the member is no part of the chain, and the name on the second line has a letter in front. -/
example : (mentions "Nat.add.0 + Int\n  éReal" "").map (fun m => (m.name, m.line, m.column)) =
    [("Nat.add", 1, 0), ("Nat", 1, 0), ("Int", 1, 12)] := by decide +kernel

end AcornCatalog.Identifier
