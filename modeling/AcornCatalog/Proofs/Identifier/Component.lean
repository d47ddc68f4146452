import AcornCatalog.Proofs.Identifier.Place
import AcornCatalog.Proofs.Sorting

/-! The parts of mentioned names. Whatever a scan finds stands in the text as whole words, with dots between them, so that
a part of it is a whole word too. The scan for types finds every whole word with a capital in front: of the parts of a
mentioned name it misses none. And no scan reads beyond its line. -/

namespace AcornCatalog.Identifier

open Text Reader Header

/-! ### Lines -/

section Lines

variable {r : Reader (List Char)} {more : List Char}

theorem keepsToLine_modulePath : KeepsToLine modulePath where
  steady _ := by
    refine .bind (.many ?_ ?_) fun _ => .bind steady_typeWord fun _ =>
      .bind (.many (steady_part rfl) (advances_part _)) fun parts => .bind (steady_wholeParts parts) fun _ => .pure _
    · exact .bind (.word (passes_atLineEnd rfl) (passes_atLineEnd rfl)) fun _ => .bind steady_dot fun _ => .pure _
    · exact .bind .word fun _ => .bind .literal fun _ => .pure _
  refuses := rfl

theorem keepsToLine_member : KeepsToLine member where
  steady _ := .bind steady_typeWord fun _ => .bind (steady_part rfl) fun _ => .bind steady_wordEnd fun _ => .pure _
  refuses := rfl

theorem wordsOf_intercalate (h : KeepsToLine r) (ls : List String) :
    wordsOf r ("\n".intercalate ls).toList = ls.flatMap fun l => wordsOf r l.toList := by
  have hjoin : ("\n".intercalate ls).toList = joinLines (ls.map String.toList) := String.toList_intercalate
  rw [hjoin, wordsOf, found_joinLines h, List.map_flatMap, List.flatMap_map]
  rfl

end Lines

/-! ### Whole words -/

/-- The name stands in the text, with no word going on at its ends. -/
def Stands (text name : List Char) : Prop := ∃ column post, StandsAt text column name post

/-- A type and one member in lower case. -/
def IsMember (w : List Char) : Prop :=
  ∃ owner own, w = joinParts owner [own] ∧ NameFrom Char.isUpper owner ∧ NameFrom isLowerStart own

section Words

variable {r : Reader (List Char)} {cs w rest : List Char} {first : Char → Bool} {name : String}

/-- A part of a path is a word with a dot or nothing at each of its ends. -/
theorem IsPath.exists_around (h : IsPath first w) {part : List Char} (hpart : part ∈ cut '.' w) :
    IsName part ∧ ∃ x y, w = x ++ part ++ y ∧ (∀ c ∈ x.getLast?, c = '.') ∧ ∀ c ∈ y.head?, c = '.' := by
  have hdot (parts : List (List Char)) : ∀ c ∈ (parts.flatMap ('.' :: ·)).head?, c = '.' := by
    cases parts with
    | nil => simp
    | cons p parts => simp
  obtain ⟨owner, parts, rfl, howner, hparts⟩ := h
  rw [cut_joinParts howner.name fun p hp => (hparts p hp).name] at hpart
  rcases List.mem_cons.mp hpart with rfl | hpart
  · exact ⟨howner.name, [], parts.flatMap ('.' :: ·), by simp [joinParts], by simp, hdot parts⟩
  · have hname := (hparts part hpart).name
    obtain ⟨before, after, rfl⟩ := List.append_of_mem hpart
    exact ⟨hname, owner ++ before.flatMap ('.' :: ·) ++ ['.'], after.flatMap ('.' :: ·), by simp [joinParts], by simp,
      hdot after⟩

/-- Where a path stands, each of its parts does. -/
theorem Stands.of_mem_cut (h : Stands cs w) (hpath : IsPath first w) {part : List Char} (hpart : part ∈ cut '.' w) :
    IsName part ∧ Stands cs part := by
  obtain ⟨column, post, front, rfl, -, hfront, hpost⟩ := h
  obtain ⟨hname, x, y, rfl, hx, hy⟩ := hpath.exists_around hpart
  refine ⟨hname, (front ++ x).length, y ++ post, front ++ x, by simp, rfl, ?_, ?_⟩
  · rw [List.getLast?_append]
    cases hlast : x.getLast? with
    | none => exact hfront
    | some c =>
      obtain rfl := hx c hlast
      rfl
  · cases y with
    | nil => exact hpost
    | cons c y =>
      obtain rfl := hy c rfl
      rfl

theorem mem_wordsOf_iff : name ∈ wordsOf r cs ↔ ∃ column, ⟨column, name.toList⟩ ∈ occurrences (atWordStart r) cs := by
  rw [mem_wordsOf]
  constructor
  · rintro ⟨o, ho, rfl⟩
    exact ⟨o.column, by rwa [String.toList_ofList]⟩
  · rintro ⟨column, ho⟩
    exact ⟨_, ho, String.ofList_toList⟩

theorem stands_of_mem_wordsOf_modulePath (h : name ∈ wordsOf modulePath cs) :
    IsModulePath name.toList ∧ Stands cs name.toList := by
  obtain ⟨column, ho⟩ := mem_wordsOf_iff.mp h
  obtain ⟨front, rest, post, rfl, -, -, -, hread⟩ := mem_occurrences_iff.mp ho
  obtain ⟨hfront, hread⟩ := atWordStart_eq_some_iff.mp hread
  obtain ⟨hpath, hpost, rfl⟩ := modulePath_eq_some hread
  exact ⟨hpath, front.length, post, front, (List.append_assoc ..).symm, rfl, hfront, hpost⟩

theorem mem_wordsOf_typeName_iff :
    name ∈ wordsOf typeName cs ↔ Stands cs name.toList ∧ NameFrom Char.isUpper name.toList := by
  simp only [mem_wordsOf_iff, mem_occurrences_typeName_iff, exists_and_right, Stands]

/-- A type within a longer name is found, and one that an accented letter touches is not. -/
example : wordsOf typeName "int.Int.Bool.add\nReal.0 + éNat.suc".toList = ["Int", "Bool", "Real"] := by decide +kernel

/-! ### Members -/

theorem member_eq_some_iff :
    member cs = some (w, rest) ↔ IsMember w ∧ rest.head?.any isWordChar = false ∧ cs = w ++ rest := by
  have hlower : ∀ c, isLowerStart c = true → isNameChar c = true := fun _ => isNameChar_of_isLowerStart
  constructor
  · intro h
    obtain ⟨⟨owner, behind⟩, howner, h⟩ := Option.bind_eq_some_iff.mp h
    obtain ⟨⟨own, behind'⟩, hown, h⟩ := Option.bind_eq_some_iff.mp h
    obtain ⟨⟨u, rest'⟩, hend, h⟩ := Option.bind_eq_some_iff.mp h
    cases h
    obtain ⟨hbound, rfl⟩ := wordEnd_eq_some_iff.mp hend
    obtain ⟨howner, hcs⟩ := word_eq_some (fun _ => isNameChar_of_isUpper) (fun _ => id) howner
    obtain ⟨hown, hbehind⟩ := part_eq_some hlower hown
    refine ⟨⟨owner, own, rfl, howner, hown⟩, hbound, ?_⟩
    simp [hcs, hbehind, joinParts]
  · rintro ⟨⟨owner, own, rfl, howner, hown⟩, hbound, rfl⟩
    have hsplit : joinParts owner [own] ++ rest = owner ++ '.' :: (own ++ rest) := by simp [joinParts]
    have hpart : part isLowerStart ('.' :: (own ++ rest)) = some (own, rest) :=
      (part_eq_some_iff hlower).mpr ⟨hown, isNameChar_eq_false_of_bound hbound, rfl⟩
    rw [hsplit, member, bind_eq_of_some (typeWord_append howner), bind_eq_of_some hpart,
      bind_eq_of_some (wordEnd_eq_some_iff (u := ()).mpr ⟨hbound, rfl⟩)]
    rfl

theorem IsMember.head (h : IsMember w) : w.head?.any Char.isUpper = true := by
  obtain ⟨owner, own, rfl, howner, -⟩ := h
  obtain ⟨c, run, rfl, hc, -⟩ := howner.exists_cons
  exact hc

theorem IsMember.isModulePath (h : IsMember w) : IsModulePath w := by
  obtain ⟨owner, own, rfl, howner, hown⟩ := h
  refine ⟨[], owner, [own], rfl, by simp, howner, by simp, ?_⟩
  exact List.forall_mem_singleton.mpr (hown.mono fun _ => isNameStart_of_isLowerStart)

theorem mem_wordsOf_member_iff : name ∈ wordsOf member cs ↔ Stands cs name.toList ∧ IsMember name.toList := by
  simp only [mem_wordsOf_iff, mem_occurrences_standsAt_iff takesPath_member member_eq_some_iff IsMember.head,
    exists_and_right, Stands]

end Words

/-! ### Mentioned names -/

section Mentioned

variable {source name : String}

theorem mem_mentioned_scans : name ∈ mentioned source ↔
    name ∈ wordsOf modulePath source.toList ∨ name ∈ wordsOf typeName source.toList ∧ name ∉ truthWords ∨
      name ∈ wordsOf member source.toList := by
  rw [mentioned, mem_sortedDistinct]
  simp only [List.mem_append, List.mem_filter, List.contains_eq_mem, Bool.not_eq_true', decide_eq_false_iff_not,
    or_assoc]

/-- What joined lines mention is what the lines mention. -/
theorem mentioned_intercalate (ls : List String) :
    mentioned ("\n".intercalate ls) = sortedDistinct (ls.flatMap mentioned) := by
  refine sortedDistinct_congr fun name => ?_
  rw [← mem_sortedDistinct]
  change name ∈ mentioned _ ↔ _
  simp only [mem_mentioned_scans, wordsOf_intercalate keepsToLine_modulePath,
    wordsOf_intercalate keepsToLine_typeName, wordsOf_intercalate keepsToLine_member, List.mem_flatMap]
  constructor
  · rintro (⟨l, hl, hname⟩ | ⟨⟨l, hl, hname⟩, htruth⟩ | ⟨l, hl, hname⟩)
    · exact ⟨l, hl, Or.inl hname⟩
    · exact ⟨l, hl, Or.inr (Or.inl ⟨hname, htruth⟩)⟩
    · exact ⟨l, hl, Or.inr (Or.inr hname)⟩
  · rintro ⟨l, hl, hname | ⟨hname, htruth⟩ | hname⟩
    · exact Or.inl ⟨l, hl, hname⟩
    · exact Or.inr (Or.inl ⟨⟨l, hl, hname⟩, htruth⟩)
    · exact Or.inr (Or.inr ⟨l, hl, hname⟩)

/-- A mentioned name is a type that is no truth value, or a module path; and it stands in the text. -/
theorem stands_of_mem_mentioned (h : name ∈ mentioned source) :
    (NameFrom Char.isUpper name.toList ∧ name ∉ truthWords ∨ IsModulePath name.toList) ∧
      Stands source.toList name.toList := by
  rcases mem_mentioned_scans.mp h with h | ⟨h, htruth⟩ | h
  · obtain ⟨hpath, hstands⟩ := stands_of_mem_wordsOf_modulePath h
    exact ⟨Or.inr hpath, hstands⟩
  · obtain ⟨hstands, htype⟩ := mem_wordsOf_typeName_iff.mp h
    exact ⟨Or.inl ⟨htype, htruth⟩, hstands⟩
  · obtain ⟨hstands, hmember⟩ := mem_wordsOf_member_iff.mp h
    exact ⟨Or.inr hmember.isModulePath, hstands⟩

theorem isPath_of_mem_mentioned (h : name ∈ mentioned source) : IsPath isNameStart name.toList := by
  obtain ⟨⟨htype, -⟩ | hpath, -⟩ := stands_of_mem_mentioned h
  · exact ⟨name.toList, [], by simp [joinParts], htype.mono fun _ => isNameStart_of_isUpper, by simp⟩
  · exact hpath.isPath

theorem mem_mentioned_type_iff (h : NameFrom Char.isUpper name.toList) :
    name ∈ mentioned source ↔ name ∉ truthWords ∧ Stands source.toList name.toList := by
  constructor
  · intro hname
    obtain ⟨⟨-, htruth⟩ | hpath, hstands⟩ := stands_of_mem_mentioned hname
    · exact ⟨htruth, hstands⟩
    · exact absurd hpath.dot_mem (h.name.not_mem rfl)
  · rintro ⟨htruth, hstands⟩
    exact mem_mentioned_scans.mpr (Or.inr (Or.inl ⟨mem_wordsOf_typeName_iff.mpr ⟨hstands, h⟩, htruth⟩))

theorem mem_mentioned_member_iff (h : IsMember name.toList) :
    name ∈ mentioned source ↔ Stands source.toList name.toList := by
  refine ⟨fun hname => (stands_of_mem_mentioned hname).2, fun hstands => ?_⟩
  exact mem_mentioned_scans.mpr (Or.inr (Or.inr (mem_wordsOf_member_iff.mpr ⟨hstands, h⟩)))

end Mentioned

/-- Lines that are joined mention the names that each of them mentions. Of a mentioned name, the parts that begin with a
    capital are mentioned too, unless they are truth values or the type of these. For what is mentioned stands in the
    text as whole words, and is a type or a module path; and every type that stands so is mentioned, with that
    exception, and so is every type with a member in lower case. -/
theorem mentioned_by_line_and_part (ls : List String) (source : String) :
    mentioned ("\n".intercalate ls) = sortedDistinct (ls.flatMap mentioned) ∧
    (∀ name ∈ mentioned source, ∀ part ∈ cut '.' name.toList, part.head?.any Char.isUpper = true →
      (String.ofList part ∈ mentioned source ↔ String.ofList part ∉ ["Bool", "True", "False"])) ∧
    (∀ name ∈ mentioned source, Stands source.toList name.toList ∧
      (NameFrom Char.isUpper name.toList ∨ IsModulePath name.toList)) ∧
    (∀ name, NameFrom Char.isUpper name.toList →
      (name ∈ mentioned source ↔ name ∉ ["Bool", "True", "False"] ∧ Stands source.toList name.toList)) ∧
    ∀ name, IsMember name.toList → (name ∈ mentioned source ↔ Stands source.toList name.toList) := by
  refine ⟨mentioned_intercalate ls, fun name hname part hpart hcapital => ?_, fun name hname => ?_,
    fun name htype => mem_mentioned_type_iff htype, fun name hmember => mem_mentioned_member_iff hmember⟩
  · -- the part is a whole word too, and with a capital in front the scan for types finds it
    obtain ⟨-, hstands⟩ := stands_of_mem_mentioned hname
    obtain ⟨hword, hstands⟩ := hstands.of_mem_cut (isPath_of_mem_mentioned hname) hpart
    have htype : NameFrom Char.isUpper (String.ofList part).toList := by
      rw [String.toList_ofList]
      exact ⟨hcapital, hword⟩
    rw [mem_mentioned_type_iff htype, String.toList_ofList]
    exact and_iff_left hstands
  · obtain ⟨hshape, hstands⟩ := stands_of_mem_mentioned hname
    exact ⟨hstands, hshape.imp_left And.left⟩

end AcornCatalog.Identifier
