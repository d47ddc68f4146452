import AcornCatalog.Proofs.Declaration.Member
import AcornCatalog.Proofs.SourceFile.Layout

/-! Braces in the sources of declarations. In a file whose brackets are in order, a declaration outside of all blocks
closes what it opens up to the brace of its last block, but its source may go on behind that brace and open more. A
member of a block takes lines until its braces are closed, and its source stays even. -/

namespace AcornCatalog

open Text Check

/-! ### Blocks that are open -/

/-- How many blocks are open behind the lines. -/
def openBlocks (ls : List Line) : Int := braceBalance ls.flatten

theorem openBlocks_append (upper lower : List Line) :
    openBlocks (upper ++ lower) = openBlocks upper + openBlocks lower := by
  rw [openBlocks, List.flatten_append, braceBalance_append]
  rfl

theorem openBlocks_cons (line : Line) (ls : List Line) :
    openBlocks (line :: ls) = braceBalance line + openBlocks ls := by
  rw [openBlocks, List.flatten_cons, braceBalance_append]
  rfl

theorem braceBalance_fileText (ls : List Line) : braceBalance (fileText ls) = openBlocks ls := by
  induction ls with
  | nil => rfl
  | cons line ls ih =>
    have hfeed : braceBalance ['\n'] = 0 := by decide
    rw [fileText_cons, openBlocks_cons, ← ih, braceBalance_append, braceBalance_append, hfeed]
    omega

theorem braceBalance_joinLines (ls : List Line) : braceBalance (joinLines ls) = openBlocks ls := by
  rcases List.eq_nil_or_concat ls with rfl | ⟨above, last, rfl⟩
  · rfl
  · rw [List.concat_eq_append, joinLines_append (List.cons_ne_nil _ _), joinLines_singleton, braceBalance_append,
      braceBalance_fileText, openBlocks_append, openBlocks_cons]
    simp [openBlocks, braceBalance]

theorem braceBalance_nonpos {cs : List Char} (h : '{' ∉ cs) : braceBalance cs ≤ 0 := by
  rw [braceBalance, List.count_eq_zero.mpr h]
  omega

/-- No text closes more blocks than it opens if it stands at the front of lines whose brackets are in order. -/
theorem nested_of_checkBrackets {ls : List Line} (h : checkBrackets ls = []) : Nested ls.flatten :=
  map_snd_numberedChars ls ▸ nested_of_no_findings h

theorem Inside.braceBalance_nonneg {left : Nat} {cs front : List Char} (h : Inside 0 left cs) (hfront : front <+: cs) :
    0 ≤ braceBalance front := by
  have := h.stays front hfront
  rw [braceBalance]
  omega

/-! ### Sources outside of blocks -/

namespace Spans

variable {kind : Kind} {line : Line} {rest : List Line} {used : Nat} {lead gap tail source : List Char}

theorem braceBalance_eq (h : Spans kind line rest used lead gap tail source) :
    braceBalance source = braceBalance lead + braceBalance gap + braceBalance tail := by
  have hnil : braceBalance [] = 0 := rfl
  cases h with
  | bare => rw [braceBalance_trim, hnil, Int.add_zero, Int.add_zero]
  | block _ _ hnested htext =>
    rw [braceBalance_trim, braceBalance_append, htext, braceBalance_block hnested, hnil, Int.add_zero]
  | blocks _ _ hnested htext _ _ hnested' htext' =>
    rw [braceBalance_trim, braceBalance_append, htext', braceBalance_block hnested', braceBalance_append, htext,
      braceBalance_block hnested]

end Spans

section Outside

variable {above : List Line} {line : Line} {rest : List Line} (h : checkBrackets (above ++ line :: rest) = [])
  (habove : openBlocks above = 0)

include h habove in
/-- Behind lines that leave no block open, a text closes no more blocks than it opens. -/
theorem braceBalance_nonneg {front : List Char} (hfront : front <+: (line :: rest).flatten) :
    0 ≤ braceBalance front := by
  obtain ⟨back, hback⟩ := hfront
  have hall : above.flatten ++ front <+: (above ++ line :: rest).flatten :=
    ⟨back, by rw [List.append_assoc, hback, List.flatten_append]⟩
  have := (nested_of_checkBrackets h).braceBalance_nonneg hall
  rw [braceBalance_append] at this
  have : braceBalance above.flatten = 0 := habove
  omega

include h habove in
theorem ClosingBrace.braceBalance_nonneg (brace : ClosingBrace (line :: rest)) {tail : Line}
    (htail : tail <+: brace.behind) : 0 ≤ braceBalance (brace.text ++ tail) := by
  obtain ⟨more, hmore⟩ := htail
  have hlines : (line :: rest).flatten = _ := congrArg List.flatten brace.lines_eq
  have hfront : brace.above.flatten ++ brace.front ++ ['}'] ++ tail <+: (line :: rest).flatten :=
    ⟨more ++ brace.below.flatten, by rw [hlines, ← hmore]; simp⟩
  have := AcornCatalog.braceBalance_nonneg h habove hfront
  rw [braceBalance_append, brace.text_eq, braceBalance_append, braceBalance_append, braceBalance_fileText]
  rwa [braceBalance_append, braceBalance_append, braceBalance_append] at this

variable {kind : Kind} {used : Nat} {lead gap tail source : List Char}

include h habove in
/-- Outside of all blocks the source of a declaration closes no block besides its own, and all of its own but those that
    open between its blocks or behind the last one. -/
theorem Spans.outside (hspans : Spans kind line rest used lead gap tail source) :
    braceBalance lead = 0 ∧ 0 ≤ braceBalance gap ∧ (kind ≠ .proposition → braceBalance gap = 0) ∧
      0 ≤ braceBalance source := by
  -- a closing brace in front of the first block would close a block from above
  have hlead (hopen : '{' ∉ lead) (hline : lead <+: line) : braceBalance lead = 0 := by
    have hfront : lead <+: (line :: rest).flatten := hline.trans (List.prefix_append ..)
    have := braceBalance_nonneg h habove hfront
    have := braceBalance_nonpos hopen
    omega
  cases hspans with
  | bare _ hopen =>
    have := hlead hopen (List.prefix_refl _)
    rw [braceBalance_trim]
    exact ⟨this, Int.le_refl _, fun _ => rfl, by omega⟩
  | @block _ _ brace hopen hline =>
    refine ⟨hlead hopen ((List.prefix_append ..).trans hline), Int.le_refl _, fun _ => rfl, ?_⟩
    rw [braceBalance_trim]
    exact brace.braceBalance_nonneg h habove (brace.taken_prefix kind)
  | @blocks _ _ _ _ brace last hopen hline hnested htext hkind hgap =>
    have hzero := hlead hopen ((List.prefix_append ..).trans hline)
    have hmore := brace.braceBalance_nonneg h habove hgap
    rw [braceBalance_append, htext, braceBalance_block hnested, hzero, Int.zero_add] at hmore
    refine ⟨hzero, hmore, fun hne => ?_, ?_⟩
    · rcases hkind with hproposition | ⟨-, hgap⟩
      · exact absurd hproposition hne
      · have := braceBalance_nonpos hgap
        omega
    · rw [braceBalance_trim]
      exact last.braceBalance_nonneg h habove (last.taken_prefix kind)

end Outside

/-! ### Members -/

/-- Lines are taken until no block is open, or none is left. -/
theorem openLines_stops (balance : Int) (rest : List Line) :
    balance + openBlocks (rest.take (openLines balance rest)) ≤ 0 ∨ rest.take (openLines balance rest) = rest := by
  induction rest generalizing balance with
  | nil => exact Or.inr rfl
  | cons line rest ih =>
    rw [openLines]
    split
    · rw [List.take_succ_cons, openBlocks_cons, ← Int.add_assoc]
      rcases ih (balance + braceBalance line) with hclosed | hall
      · exact Or.inl hclosed
      · exact Or.inr (congrArg (List.cons line) hall)
    · refine Or.inl ?_
      rw [List.take_zero]
      simp only [openBlocks, List.flatten_nil, braceBalance, List.count_nil]
      omega

theorem openBlocks_braceLines {line : Line} {rest : List Line} (h : openBlocks (line :: rest) ≤ 0) :
    openBlocks (braceLines line rest) ≤ 0 := by
  rw [braceLines, openBlocks_cons]
  rcases openLines_stops (braceBalance line) rest with hclosed | hall
  · exact hclosed
  · rwa [hall, ← openBlocks_cons]

/-- The lines of a block above a member, those of the member and those below it. A member takes as many lines as its
    braces ask for, and a single line if none opens there; the source of a field is its line, trimmed. -/
structure OwnLines (body source : List Char) (upper own lower : List Line) : Prop where
  lines_eq : cut '\n' body = upper ++ (own ++ lower)
  taken : ∃ line below, own ++ lower = line :: below ∧ (own = braceLines line below ∨ own = [line] ∧ '{' ∉ line)
  source_eq : source = joinLines own ∨ source = trim (joinLines own)

namespace OwnLines

variable {body source : List Char} {upper lower : List Line} {line : Line} {below : List Line}

theorem ofBraceLines (h : cut '\n' body = upper ++ line :: below)
    (hsource : source = joinLines (braceLines line below)) :
    ∃ upper own lower, OwnLines body source upper own lower := by
  have htaken : braceLines line below ++ below.drop (openLines (braceBalance line) below) = line :: below := by
    rw [braceLines, List.cons_append, List.take_append_drop]
  exact ⟨upper, _, _, by rw [h, htaken], ⟨line, below, htaken, Or.inl rfl⟩, Or.inl hsource⟩

theorem ofLine (h : cut '\n' body = upper ++ line :: below) (hopen : '{' ∉ line)
    (hsource : source = joinLines [line] ∨ source = trim (joinLines [line])) :
    ∃ upper own lower, OwnLines body source upper own lower :=
  ⟨upper, [line], below, h, ⟨line, below, rfl, Or.inr ⟨rfl, hopen⟩⟩, hsource⟩

theorem braceBalance_eq {own : List Line} (h : OwnLines body source upper own lower) :
    braceBalance source = openBlocks own := by
  rcases h.source_eq with hsource | hsource
  · rw [hsource, braceBalance_joinLines]
  · rw [hsource, braceBalance_trim, braceBalance_joinLines]

end OwnLines

theorem ClassMember.ownLines_of_mem {body : List Char} {m : ClassMember} (h : m ∈ classMembers body) :
    ∃ upper own lower, OwnLines body m.source.toList upper own lower := by
  obtain ⟨above, line, below, used, hbody, hstep⟩ := mem_membersBy h
  unfold classMemberAt at hstep
  split at hstep
  · rename_i name type hfield
    cases hstep
    have hopen : '{' ∉ trim line :=
      (Header.refuses_classField (by decide) (by decide) (by decide)).not_mem hfield
    rw [← List.count_eq_zero, count_trim (by decide), List.count_eq_zero] at hopen
    have hsource : (ClassMember.field name type (trim line)).source.toList = trim (joinLines [line]) := by
      rw [joinLines_singleton]
      exact String.toList_ofList
    exact OwnLines.ofLine hbody hopen (Or.inr hsource)
  · obtain ⟨_, -, heq⟩ := Option.map_eq_some_iff.mp hstep
    cases heq
    exact OwnLines.ofBraceLines hbody String.toList_ofList

theorem Definition.ownLines_of_mem {target : String} {body : List Char} {m : Definition}
    (h : m ∈ attributeMembers target body) : ∃ upper own lower, OwnLines body m.source.toList upper own lower := by
  obtain ⟨above, line, below, used, hbody, hstep⟩ := mem_membersBy h
  have hsource : m.source = String.ofList (joinLines (attributeLines line below)) := by
    simp only [attributeAt] at hstep
    split at hstep
    · cases hstep
      rfl
    · obtain ⟨_, -, heq⟩ := Option.map_eq_some_iff.mp hstep
      cases heq
      rfl
  rw [hsource, String.toList_ofList, attributeLines]
  split
  · exact OwnLines.ofBraceLines hbody rfl
  · next hopen => exact OwnLines.ofLine hbody (by simpa using hopen) (Or.inl rfl)

/-! ### Members in a block -/

theorem openBlocks_alike {ls ms : List Line} (h : List.Forall₂ Alike ls ms) : openBlocks ls = openBlocks ms := by
  induction h with
  | nil => rfl
  | cons hline _ ih => rw [openBlocks_cons, openBlocks_cons, braceBalance_alike hline, ih]

/-- Lines at the front of a nested text close no more blocks than they open. -/
theorem Inside.openBlocks_nonneg {left : Nat} {above below : List Line}
    (h : Inside 0 left (joinLines (above ++ below))) : 0 ≤ openBlocks above := by
  cases below with
  | nil =>
    rw [← braceBalance_joinLines, ← List.append_nil above]
    exact h.braceBalance_nonneg (List.prefix_refl _)
  | cons line below =>
    rw [joinLines_append (List.cons_ne_nil _ _)] at h
    rw [← braceBalance_fileText]
    exact h.braceBalance_nonneg (List.prefix_append ..)

section InBlock

variable {line : Line} {rest : List Line} {block : Block} (hblock : firstBlock? line rest = some block)
  (hfeed : ∀ l ∈ line :: rest, '\n' ∉ l)

include hblock hfeed in
theorem openBlocks_content {upper lower : List Line} (h : cut '\n' block.content = upper ++ lower) :
    0 ≤ openBlocks upper ∧ openBlocks upper + openBlocks lower = 0 := by
  obtain ⟨column, -, hcapture⟩ := Option.bind_eq_some_iff.mp hblock
  obtain ⟨-, -, -, -, -, -, -, hnested⟩ := firstBlock?_eq_some hblock
  obtain ⟨hne, hinner⟩ := Block.inner_of_capture hcapture
  have hfeeds : ∀ l ∈ block.inner, '\n' ∉ l := fun l hl hmem => by
    obtain ⟨line', hline', hstands⟩ := hinner l hl
    exact hfeed line' hline' (hstands.subset hmem)
  have halike := forall₂_alike (map_gist_cut_content hne hfeeds)
  rw [h] at halike
  have hupper := openBlocks_alike (List.forall₂_take upper.length halike)
  rw [List.take_left] at hupper
  have hall := openBlocks_alike halike
  rw [openBlocks_append, ← braceBalance_joinLines block.inner, hnested.braceBalance_eq] at hall
  rw [← List.take_append_drop upper.length block.inner] at hnested
  exact ⟨hupper ▸ hnested.openBlocks_nonneg, hall⟩

include hblock hfeed in
/-- The source of a member closes what it opens, and is even if no block of the body is open above it. -/
theorem OwnLines.closes {source : List Char} {upper own lower : List Line}
    (h : OwnLines block.content source upper own lower) :
    braceBalance source ≤ 0 ∧ (openBlocks upper = 0 → braceBalance source = 0) := by
  obtain ⟨hupper, hrest⟩ := openBlocks_content hblock hfeed h.lines_eq
  -- what is open above the member closes behind it, so its lines do not run out before it is closed
  have hclosed : openBlocks own ≤ 0 := by
    obtain ⟨first, below, heq, hown | ⟨rfl, hopen⟩⟩ := h.taken
    · rw [hown]
      refine openBlocks_braceLines ?_
      rw [← heq]
      omega
    · rw [openBlocks_cons]
      have := braceBalance_nonpos hopen
      simpa [openBlocks, braceBalance] using this
  rw [h.braceBalance_eq]
  refine ⟨hclosed, fun hzero => ?_⟩
  have hlines : cut '\n' block.content = (upper ++ own) ++ lower := by rw [h.lines_eq, List.append_assoc]
  obtain ⟨hfront, -⟩ := openBlocks_content hblock hfeed hlines
  rw [openBlocks_append] at hfront
  omega

end InBlock

theorem TypeClass.source_expandMember (d : TypeClass) (m : ClassMember) :
    (d.expandMember m).item.source = m.source := by
  unfold expandMember
  split <;> rfl

theorem DeclaredBy.ownLines {place : Place} {line : Line} {rest : List Line} {d : Declaration} {used : Nat}
    (h : DeclaredBy place line rest d used) (hmember : d.item.kind.standsAlone = false) :
    ∃ block, firstBlock? line rest = some block ∧
      ∃ upper own lower, OwnLines block.content d.item.source.toList upper own lower := by
  cases h with
  | classMember h hexpand =>
    obtain ⟨block, m, hblock, hmem, rfl⟩ := TypeClass.mem_of_read? h hexpand
    rw [TypeClass.source_expandMember]
    exact ⟨block, hblock, ClassMember.ownLines_of_mem hmem⟩
  | attributeMember h hlocated =>
    obtain ⟨block, member, hblock, hmem, rfl⟩ := AttributesBlock.mem_of_read? h hlocated
    have hown := Definition.ownLines_of_mem hmem
    exact ⟨block, hblock, hown⟩
  | instanceBlock h => simp [Declaration.item, InstanceBlock.kind_of_read? h, Kind.standsAlone] at hmember
  | statement h =>
    rcases Statement.kind_of_read? h with h | h <;> simp [Declaration.item, h, Kind.standsAlone] at hmember
  | typeClass h => simp [Declaration.item, TypeClass.kind_of_read? h, Kind.standsAlone] at hmember
  | structureType h => simp [Declaration.item, StructureType.kind_of_read? h, Kind.standsAlone] at hmember
  | inductiveType h => simp [Declaration.item, InductiveType.kind_of_read? h, Kind.standsAlone] at hmember
  | definition h => simp [Declaration.item, Definition.kind_of_read? h, Kind.standsAlone] at hmember

namespace SourceFile

/-- In a file whose brackets are in order, the braces of a source that stands alone are even up to those in front of its
    first block, between its blocks and in what it takes along behind the last one. If it stands outside of all blocks
    nothing in front of its first block counts, nor between its blocks unless it is a theorem, and it never closes more
    than it opens; so it stops in the middle of a block exactly if one is left open there. The source of a member closes
    all that it opens, and is even if no block of the body is open above it. -/
theorem sources_even_but_for_tails (file : SourcePath) (text : List Char)
    (h : checkBrackets (lines (unifyBreaks text)) = []) :
    ∀ d ∈ (ofText file text).declarations, ∃ above line rest, lines (unifyBreaks text) = above ++ line :: rest ∧
      d.item.location = some (Place.location ⟨file, above.length⟩) ∧
      (d.item.kind.standsAlone = true → ∃ used lead gap tail,
        Spans d.item.kind line rest used lead gap tail d.item.source.toList ∧
        braceBalance d.item.source.toList = braceBalance lead + braceBalance gap + braceBalance tail ∧
        (openBlocks above = 0 → braceBalance lead = 0 ∧ 0 ≤ braceBalance gap ∧
          (d.item.kind ≠ .proposition → braceBalance gap = 0) ∧ 0 ≤ braceBalance d.item.source.toList)) ∧
      (d.item.kind.standsAlone = false → ∃ block upper own lower, firstBlock? line rest = some block ∧
        OwnLines block.content d.item.source.toList upper own lower ∧ braceBalance d.item.source.toList ≤ 0 ∧
        (openBlocks upper = 0 → braceBalance d.item.source.toList = 0)) := by
  intro d hd
  have hfeed : ∀ l ∈ lines (unifyBreaks text), '\n' ∉ l := fun l hl hmem =>
    absurd (unbroken_of_mem_lines hl '\n' hmem) (by decide)
  obtain ⟨number, line, rest, e, used, hnumber, hdrop, hby, rfl⟩ := declaredBy_of_mem hd
  have hlines : lines (unifyBreaks text) = (lines (unifyBreaks text)).take number ++ line :: rest := by
    rw [← hdrop, List.take_append_drop]
  have hlength : ((lines (unifyBreaks text)).take number).length = number :=
    List.length_take_of_le (Nat.le_of_lt hnumber)
  refine ⟨_, line, rest, hlines, ?_⟩
  rw [hlength, Declaration.enrich, Declaration.item_modify]
  refine ⟨hby.readAt.location, fun halone => ?_, fun hmember => ?_⟩
  · obtain ⟨lead, gap, tail, hspans⟩ := hby.spanned halone
    rw [hlines] at h
    exact ⟨used, lead, gap, tail, hspans, hspans.braceBalance_eq, fun habove => hspans.outside h habove⟩
  · obtain ⟨block, hblock, upper, own, lower, hown⟩ := hby.ownLines hmember
    have hfeed' : ∀ l ∈ line :: rest, '\n' ∉ l := fun l hl => hfeed l (hlines ▸ List.mem_append_right _ hl)
    obtain ⟨hclosed, heven⟩ := hown.closes hblock hfeed'
    exact ⟨block, upper, own, lower, hblock, hown, hclosed, heven⟩

/-- A structure whose constraint has a proof ends with the line that opens the proof. -/
theorem sources_even_but_for_tails_constraint :
    ∃ text d, text = fileText (["structure Pair \x7b", "    first: Int", "    second: Int", "\x7d constraint \x7b",
        "    first <= second", "\x7d by \x7b", "\x7d"].map String.toList) ∧
      checkBrackets (lines (unifyBreaks text)) = [] ∧ (ofText ⟨0, ["int.ac"]⟩ text).declarations = [d] ∧
      braceBalance d.item.source.toList = 1 ∧
      ∃ line rest used lead gap tail, Spans .structureType line rest used lead gap tail d.item.source.toList ∧
        braceBalance tail = 1 := by
  obtain ⟨text, d, htext, hbrackets, hone, hkind, hlocation, heven⟩ : ∃ text d,
      text = fileText (["structure Pair \x7b", "    first: Int", "    second: Int", "\x7d constraint \x7b",
        "    first <= second", "\x7d by \x7b", "\x7d"].map String.toList) ∧
      checkBrackets (lines (unifyBreaks text)) = [] ∧ (ofText ⟨0, ["int.ac"]⟩ text).declarations = [d] ∧
      d.item.kind = .structureType ∧ d.item.location = some (Place.location ⟨⟨0, ["int.ac"]⟩, 0⟩) ∧
      braceBalance d.item.source.toList = 1 := ⟨_, _, rfl, by decide, rfl, rfl, rfl, rfl⟩
  obtain ⟨above, line, rest, -, hplace, halone, -⟩ := sources_even_but_for_tails ⟨0, ["int.ac"]⟩ text hbrackets d
    (hone ▸ List.mem_singleton_self d)
  obtain ⟨used, lead, gap, tail, hspans, hparts, houtside⟩ := halone (by rw [hkind]; rfl)
  have habove : above = [] := by
    rw [hlocation] at hplace
    simp only [Place.location, Option.some.injEq, Location.mk.injEq] at hplace
    exact List.length_eq_zero_iff.mp (by omega)
  obtain ⟨hlead, -, hgap, -⟩ := houtside (by rw [habove]; rfl)
  rw [hkind] at hspans hgap
  refine ⟨text, d, htext, hbrackets, hone, heven, line, rest, used, lead, gap, tail, hspans, ?_⟩
  have := hgap (by decide)
  omega

end SourceFile

end AcornCatalog
