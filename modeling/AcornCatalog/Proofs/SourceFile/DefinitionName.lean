import AcornCatalog.Check.LineRule
import AcornCatalog.Proofs.Declaration.Header
import AcornCatalog.Proofs.SourceFile.Declared

/-! The names of definitions. The check takes the name of a definition as far as it goes, while reading a definition
stops at the first capital. So a definition is called by the front of its name, and two definitions whose names agree up
to their first capitals are called the same. -/

namespace AcornCatalog

open Text Reader Header

/-! ### The front of a name -/

/-- The part of a name in front of its first capital. -/
def lowerFront (name : List Char) : List Char := name.takeWhile isLowerChar

theorem isLowerChar_iff {c : Char} (h : isNameChar c = true) : isLowerChar c = true ↔ c.isUpper = false := by
  refine ⟨isUpper_eq_false_of_isLowerChar, fun hupper => ?_⟩
  simpa [isNameChar_eq, hupper, isLowerChar] using h

theorem lowerFront_eq_self_iff {name : List Char} (h : IsName name) :
    lowerFront name = name ↔ ∀ c ∈ name, c.isUpper = false := by
  rw [lowerFront, List.takeWhile_eq_self_iff]
  exact forall₂_congr fun c hc => isLowerChar_iff (h c hc)

/-! ### Texts that define a name -/

/-- A text that defines `name`: blanks, `define`, blanks and the name, with no more of its kind behind it. -/
def Defines (text name : List Char) : Prop :=
  ∃ indent gap rest, allBlank indent = true ∧ gap ≠ [] ∧ allBlank gap = true ∧ NameFrom isNameStart name ∧
    (∀ c ∈ rest.head?, isNameChar c = false) ∧ text = indent ++ ("define".toList ++ (gap ++ (name ++ rest)))

section Defines

variable {text name : List Char}

theorem leading_eq (keyword : String) (cs : List Char) :
    Check.leading keyword cs = Header.keyword keyword (trimStart cs) := rfl

/-- The check takes the whole name for that of a definition. -/
theorem read?_defined_iff : Check.defined.read? text = some name ↔ Defines text name := by
  constructor
  · intro h
    obtain ⟨⟨_, rest⟩, hread, rfl⟩ := Option.map_eq_some_iff.mp h
    obtain ⟨⟨_, behind⟩, hleading, hword⟩ := Option.bind_eq_some_iff.mp hread
    obtain ⟨gap, hne, hgap, hstart⟩ := keyword_eq_some (leading_eq "define" text ▸ hleading)
    obtain ⟨hname, rfl⟩ := word_eq_some (fun _ => isNameChar_of_isNameStart) (fun _ => id) hword
    refine ⟨text.takeWhile isBlank, gap, rest, List.all_takeWhile, hne, hgap, hname, word_stops hword, ?_⟩
    rw [← hstart, trimStart, List.takeWhile_append_dropWhile]
  · rintro ⟨indent, gap, rest, hindent, hne, hgap, hname, hrest, rfl⟩
    obtain ⟨c, run, heq, hc, -⟩ := hname.exists_cons
    have hblank : isBlank c = false := isBlank_eq_false_of_isNameChar (isNameChar_of_isNameStart hc)
    have hstart : trimStart (indent ++ ("define".toList ++ (gap ++ (name ++ rest)))) =
        "define".toList ++ (gap ++ (name ++ rest)) := trimStart_append_of_allBlank hindent _
    have hkeyword : Header.keyword "define" ("define".toList ++ (gap ++ (name ++ rest))) = some ((), name ++ rest) := by
      rw [heq]
      exact keyword_append hne hgap hblank _
    have hleading := leading_eq "define" (indent ++ ("define".toList ++ (gap ++ (name ++ rest))))
    rw [hstart, hkeyword] at hleading
    rw [Reader.read?, Check.defined, bind_eq_of_some hleading, word_append hname hrest]
    rfl

/-- The name that reading takes is the front of the name that the check takes. -/
theorem word_lowerFront {cs name rest : List Char} (h : word isLowerStart isLowerChar cs = some (name, rest)) :
    ∃ whole rest', word isNameStart isNameChar cs = some (whole, rest') ∧ name = lowerFront whole := by
  cases cs with
  | nil => cases h
  | cons c cs =>
    obtain ⟨⟨d, behind⟩, hone, hspan⟩ := Option.bind_eq_some_iff.mp h
    obtain ⟨hd, heq⟩ := one_eq_some.mp hone
    cases heq
    cases hspan
    have hlower : isLowerChar c = true := isLowerChar_of_isLowerStart hd
    refine ⟨c :: cs.takeWhile isNameChar, cs.dropWhile isNameChar, ?_, ?_⟩
    · exact bind_eq_of_some (one_eq_some.mpr ⟨isNameStart_of_isLowerStart hd, rfl⟩)
    · have hboth : ∀ d, (isLowerChar d && isNameChar d) = isLowerChar d := fun d => by
        cases hd : isLowerChar d with
        | false => rfl
        | true => exact isNameChar_of_isLowerChar hd
      simp [lowerFront, hlower, List.takeWhile_takeWhile, hboth]

theorem defines_of_definition {name : List Char} (h : Header.definition.read? text = some name) :
    ∃ whole, Defines text whole ∧ name = lowerFront whole := by
  obtain ⟨⟨_, rest⟩, hread, rfl⟩ := Option.map_eq_some_iff.mp h
  obtain ⟨⟨_, behind⟩, hkeyword, hword⟩ := Option.bind_eq_some_iff.mp hread
  obtain ⟨whole, rest', hwhole, hname⟩ := word_lowerFront hword
  obtain ⟨gap, hne, hgap, rfl⟩ := keyword_eq_some hkeyword
  obtain ⟨hfrom, rfl⟩ := word_eq_some (fun _ => isNameChar_of_isNameStart) (fun _ => id) hwhole
  exact ⟨whole, ⟨[], gap, rest', rfl, hne, hgap, hfrom, word_stops hwhole, rfl⟩, hname⟩

theorem Defines.isName (h : Defines text name) : IsName name := by
  obtain ⟨_, _, _, _, _, _, hname, _⟩ := h
  exact hname.name

theorem Defines.append (h : Defines text name) {tail : List Char} (htail : ∀ c ∈ tail.head?, isNameChar c = false) :
    Defines (text ++ tail) name := by
  obtain ⟨indent, gap, rest, hindent, hne, hgap, hname, hrest, rfl⟩ := h
  refine ⟨indent, gap, rest ++ tail, hindent, hne, hgap, hname, fun c hc => ?_, by simp⟩
  cases rest with
  | nil => exact htail c hc
  | cons d rest => exact hrest c hc

theorem Defines.blanks_append (h : Defines text name) {blanks : List Char} (hblanks : allBlank blanks = true) :
    Defines (blanks ++ text) name := by
  obtain ⟨indent, gap, rest, hindent, hne, hgap, hname, hrest, rfl⟩ := h
  refine ⟨blanks ++ indent, gap, rest, ?_, hne, hgap, hname, hrest, by simp⟩
  rw [allBlank, List.all_append, Bool.and_eq_true]
  exact ⟨hblanks, hindent⟩

theorem Defines.trim (h : Defines text name) : Defines (trim text) name := by
  obtain ⟨indent, gap, rest, hindent, hne, hgap, hname, hrest, rfl⟩ := h
  obtain ⟨c, run, heq, -⟩ := hname.exists_cons
  have hnil : name ≠ [] := heq ▸ List.cons_ne_nil _ _
  have hlast : isBlank (name.getLast hnil) = false :=
    isBlank_eq_false_of_isNameChar (hname.name _ (List.getLast_mem hnil))
  -- the end of the name is no blank, so that only what stands behind it is cut
  have hend : trimEnd ("define".toList ++ (gap ++ (name ++ rest))) =
      "define".toList ++ (gap ++ (name ++ trimEnd rest)) := by
    have := trimEnd_append_cons hlast ("define".toList ++ (gap ++ name.dropLast)) rest
    rw [← List.dropLast_append_getLast hnil]
    simpa using this
  have htrim : Text.trim (indent ++ ("define".toList ++ (gap ++ (name ++ rest)))) =
      "define".toList ++ (gap ++ (name ++ trimEnd rest)) := by
    rw [trim_blanks_append hindent]
    exact hend
  refine ⟨[], gap, trimEnd rest, rfl, hne, hgap, hname, fun d hd => ?_, htrim⟩
  obtain ⟨more, hmore⟩ := trimEnd_isPrefix rest
  refine hrest d ?_
  rw [← hmore, List.head?_append, Option.mem_def.mp hd]
  rfl

theorem exists_joinLines_cons (l : Line) (ls : List Line) :
    ∃ tail, (∀ c ∈ tail.head?, isNameChar c = false) ∧ joinLines (l :: ls) = l ++ tail := by
  cases ls with
  | nil => exact ⟨[], fun _ hc => (by cases hc), by rw [joinLines_singleton, List.append_nil]⟩
  | cons m ls =>
    exact ⟨'\n' :: joinLines (m :: ls), fun c hc => (by cases hc; rfl), joinLines_cons (List.cons_ne_nil _ _) l⟩

theorem Defines.joinLines {line : Line} (h : Defines line name) (ls : List Line) :
    Defines (joinLines (line :: ls)) name := by
  obtain ⟨tail, htail, heq⟩ := exists_joinLines_cons line ls
  rw [heq]
  exact h.append htail

theorem Defines.of_trim {line : Line} (h : Defines (Text.trim line) name) : Defines line name := by
  obtain ⟨blanks, hblanks, hend⟩ := exists_trimEnd_append (trimStart line)
  have hstart : Defines (trimStart line) name := by
    rw [hend]
    refine Defines.append h fun c hc => isNameChar_eq_false_of_isBlank ?_
    exact List.all_eq_true.mp hblanks c (List.mem_of_head? hc)
  have hindent : allBlank (line.takeWhile isBlank) = true := List.all_takeWhile
  have := hstart.blanks_append hindent
  rwa [trimStart, List.takeWhile_append_dropWhile] at this

end Defines

/-! ### Definitions -/

/-- The item is called by the name that its source defines, behind the name of its owner, up to the first capital. It is
    called by the whole name exactly if that has no capital. -/
structure Item.CalledByFront (owner : String) (item : Item) (name : List Char) : Prop where
  written : Check.defined.read? item.source.toList = some name
  called : item.name = owner ++ String.ofList (lowerFront name)
  whole : item.name = owner ++ String.ofList name ↔ ∀ c ∈ name, c.isUpper = false

theorem append_ofList_inj {owner : String} {a b : List Char} :
    owner ++ String.ofList a = owner ++ String.ofList b ↔ a = b := by
  constructor
  · intro h
    have := congrArg String.toList h
    simpa using this
  · rintro rfl
    rfl

theorem Item.CalledByFront.ofDefines {owner : String} {item : Item} {name : List Char}
    (hsource : Defines item.source.toList name) (hname : item.name = owner ++ String.ofList (lowerFront name)) :
    item.CalledByFront owner name where
  written := read?_defined_iff.mpr hsource
  called := hname
  whole := by rw [hname, append_ofList_inj, lowerFront_eq_self_iff hsource.isName]

theorem Item.CalledByFront.name_eq_iff {owner : String} {item other : Item} {n m : List Char}
    (h : item.CalledByFront owner n) (h' : other.CalledByFront owner m) :
    item.name = other.name ↔ lowerFront n = lowerFront m := by
  rw [h.called, h'.called, append_ofList_inj]

theorem Definition.calledByFront {place : Place} {line : Line} {rest : List Line} {d : Definition} {used : Nat}
    (h : Definition.read? place line rest = some (d, used)) :
    ∃ name, Defines line name ∧ d.toItem.CalledByFront "" name := by
  obtain ⟨front, hfront, h⟩ := Option.bind_eq_some_iff.mp h
  obtain ⟨block, -, h⟩ := Option.bind_eq_some_iff.mp h
  cases h
  obtain ⟨name, hdefines, rfl⟩ := defines_of_definition hfront
  refine ⟨name, hdefines, .ofDefines ?_ (by simp)⟩
  rw [wholeLines, String.toList_ofList]
  exact (hdefines.joinLines _).trim

theorem Definition.calledByFront_of_mem {target : String} {body : List Char} {m : Definition}
    (h : m ∈ attributeMembers target body) (hkind : m.kind = .attributeMethod) :
    ∃ line ∈ cut '\n' body, ∃ name, Defines line name ∧ m.toItem.CalledByFront (target ++ ".") name := by
  obtain ⟨above, line, below, used, hbody, hstep⟩ := mem_membersBy h
  simp only [attributeAt] at hstep
  split at hstep
  · cases hstep
    cases hkind
  · obtain ⟨front, hfront, heq⟩ := Option.map_eq_some_iff.mp hstep
    cases heq
    obtain ⟨name, hdefines, rfl⟩ := defines_of_definition hfront
    refine ⟨line, by simp [hbody], name, hdefines.of_trim, .ofDefines ?_ rfl⟩
    rw [String.toList_ofList, attributeLines]
    split
    · exact hdefines.of_trim.joinLines _
    · exact hdefines.of_trim.joinLines []

namespace SourceFile

theorem calledByFront_of_mem {file : SourcePath} {text : List Char} {d : Declaration}
    (h : d ∈ (ofText file text).declarations) (hkind : d.item.kind = .definition) :
    ∃ name, d.item.CalledByFront "" name := by
  obtain ⟨number, line, rest, e, used, -, -, hby, rfl⟩ := declaredBy_of_mem h
  -- enriching adds names and a digest, and keeps what a definition is called by
  have hitem : (e.enrich file).item.name = e.item.name ∧ (e.enrich file).item.source = e.item.source ∧
      (e.enrich file).item.kind = e.item.kind := by
    rw [Declaration.enrich, Declaration.item_modify]
    exact ⟨rfl, rfl, rfl⟩
  obtain ⟨hname, hsource, hsame⟩ := hitem
  rw [hsame] at hkind
  rcases hby.definition_cases (Or.inl hkind) with ⟨d, rfl, hread⟩ | ⟨b, m, rfl, -, -, hmethod⟩
  · obtain ⟨name, -, hcalled⟩ := Definition.calledByFront hread
    exact ⟨name, by rw [hsource]; exact hcalled.written, by rw [hname]; exact hcalled.called,
      by rw [hname]; exact hcalled.whole⟩
  · cases hkind.symm.trans hmethod

/-- A definition is called by its name up to the first capital, at the top of a file and in an attributes block alike.
    Two definitions of a file are therefore called the same exactly if their names agree up to their first capitals. -/
theorem definitions_called_by_front (file : SourcePath) (text : List Char) :
    (∀ number line rest d used, Definition.read? ⟨file, number⟩ line rest = some (d, used) →
      ∃ name, Check.defined.read? line = some name ∧ d.toItem.CalledByFront "" name) ∧
    (∀ target body, ∀ m ∈ attributeMembers target body, m.kind = .attributeMethod →
      ∃ line ∈ cut '\n' body, ∃ name, Check.defined.read? line = some name ∧
        m.toItem.CalledByFront (target ++ ".") name) ∧
    ∀ d ∈ (ofText file text).declarations, ∀ e ∈ (ofText file text).declarations,
      d.item.kind = .definition → e.item.kind = .definition →
      ∃ n m, d.item.CalledByFront "" n ∧ e.item.CalledByFront "" m ∧
        (d.item.name = e.item.name ↔ lowerFront n = lowerFront m) := by
  refine ⟨?_, ?_, ?_⟩
  · intro number line rest d used h
    obtain ⟨name, hdefines, hcalled⟩ := Definition.calledByFront h
    exact ⟨name, read?_defined_iff.mpr hdefines, hcalled⟩
  · intro target body m hm hkind
    obtain ⟨line, hline, name, hdefines, hcalled⟩ := Definition.calledByFront_of_mem hm hkind
    exact ⟨line, hline, name, read?_defined_iff.mpr hdefines, hcalled⟩
  · intro d hd e he hkind hkind'
    obtain ⟨n, hn⟩ := calledByFront_of_mem hd hkind
    obtain ⟨m, hm⟩ := calledByFront_of_mem he hkind'
    exact ⟨n, m, hn, hm, hn.name_eq_iff hm⟩

/-- Two definitions that are called the same. -/
theorem definitions_called_by_front_shared :
    ∃ d e, (ofText ⟨0, ["nat.ac"]⟩
          "define fooBar(n: Nat) \x7b n \x7d\ndefine fooBaz(n: Nat) \x7b 0 \x7d".toList).declarations = [d, e] ∧
      Check.defined.read? d.item.source.toList = some "fooBar".toList ∧
      Check.defined.read? e.item.source.toList = some "fooBaz".toList ∧ d.item.name = e.item.name := by
  obtain ⟨d, e, hboth, hd, he, hkind, hkind'⟩ : ∃ d e, (ofText ⟨0, ["nat.ac"]⟩
          "define fooBar(n: Nat) \x7b n \x7d\ndefine fooBaz(n: Nat) \x7b 0 \x7d".toList).declarations = [d, e] ∧
      Check.defined.read? d.item.source.toList = some "fooBar".toList ∧
      Check.defined.read? e.item.source.toList = some "fooBaz".toList ∧ d.item.kind = .definition ∧
      e.item.kind = .definition := ⟨_, _, rfl, rfl, rfl, rfl, rfl⟩
  obtain ⟨n, m, hn, hm, hname⟩ := (definitions_called_by_front ⟨0, ["nat.ac"]⟩ _).2.2 d (by rw [hboth]; simp) e
    (by rw [hboth]; simp) hkind hkind'
  cases hd.symm.trans hn.written
  cases he.symm.trans hm.written
  have hfront : lowerFront "fooBar".toList = lowerFront "fooBaz".toList := by decide
  exact ⟨d, e, hboth, hd, he, hname.mpr hfront⟩

end SourceFile

end AcornCatalog
