import AcornCatalog.Proofs.Declaration.Statement
import AcornCatalog.Proofs.SourceFile.Declared

/-! Where the source of a declaration ends. Whatever its kind, a declaration that stands alone reaches from its line to
the brace that closes its last block, and takes along some of what stands behind that brace. -/

namespace AcornCatalog

open Text

/-! ### Sources up to a brace -/

/-- What a source takes along behind the brace that closes its last block: the rest of the line, but for a theorem or
    postulate only if that is its first line. -/
def ClosingBrace.taken {ls : List Line} (kind : Kind) (brace : ClosingBrace ls) : Line :=
  if kind = .proposition ∨ kind = .postulate then brace.overrun else brace.behind

theorem ClosingBrace.taken_prefix {ls : List Line} (kind : Kind) (brace : ClosingBrace ls) :
    brace.taken kind <+: brace.behind := by
  unfold taken
  split
  · exact brace.overrun_prefix
  · exact List.prefix_refl _

/-- How the source of a declaration lies in its line and `used` lines below: `lead` stands in front of its first block
    and `gap` between its blocks, and it takes `tail` along behind the last one. Only a theorem and a structure may have
    a second block, and only an instance may have none. -/
inductive Spans (kind : Kind) (line : Line) (rest : List Line) (used : Nat) :
    (lead gap tail source : List Char) → Prop where
  | bare (hkind : kind = .instanceBlock) (h : '{' ∉ line) (hused : used = 0) :
      Spans kind line rest used line [] [] (trim line)
  | block {lead inner : List Char} {brace : ClosingBrace (line :: rest)} (hlead : '{' ∉ lead)
      (hline : lead ++ ['{'] <+: line) (hnested : Nested inner) (htext : brace.text = lead ++ '{' :: inner ++ ['}'])
      (hused : brace.above.length = used) :
      Spans kind line rest used lead [] (brace.taken kind) (trim (brace.text ++ brace.taken kind))
  | blocks {lead inner gap inner' : List Char} {brace last : ClosingBrace (line :: rest)} (hlead : '{' ∉ lead)
      (hline : lead ++ ['{'] <+: line) (hnested : Nested inner) (htext : brace.text = lead ++ '{' :: inner ++ ['}'])
      (hkind : kind = .proposition ∨ kind = .structureType ∧ '{' ∉ gap) (hgap : gap <+: brace.behind)
      (hnested' : Nested inner') (htext' : last.text = brace.text ++ gap ++ '{' :: inner' ++ ['}'])
      (hused : last.above.length = used) :
      Spans kind line rest used lead gap (last.taken kind) (trim (last.text ++ last.taken kind))

/-- The source of the item lies in the lines as it does for its kind. -/
def Item.Spanned (line : Line) (rest : List Line) (used : Nat) (item : Item) : Prop :=
  ∃ lead gap tail, Spans item.kind line rest used lead gap tail item.source.toList

/-! ### Declarations that stand alone -/

section Read

variable {place : Place} {line : Line} {rest : List Line} {used : Nat} {item : Item}

theorem Item.Spanned.ofSpans {lead gap tail source : List Char} (hsource : item.source = String.ofList source)
    (h : Spans item.kind line rest used lead gap tail source) : item.Spanned line rest used := by
  rw [Item.Spanned, hsource, String.toList_ofList]
  exact ⟨lead, gap, tail, h⟩

theorem Item.Spanned.ofFirstBlock (hkind : ¬(item.kind = .proposition ∨ item.kind = .postulate)) {block : Block}
    (h : firstBlock? line rest = some block) (hsource : item.source = wholeLines line rest block.height) :
    item.Spanned line rest block.height := by
  obtain ⟨lead, brace, hlead, hline, hheight, -, htext, hnested⟩ := firstBlock?_eq_some h
  have htaken : brace.taken item.kind = brace.behind := if_neg hkind
  have hwhole := wholeLines_eq brace hheight
  rw [← htaken] at hwhole
  exact .ofSpans (hsource.trans hwhole) (.block hlead hline hnested htext hheight)

theorem Statement.spanned {d : Statement} (h : Statement.read? place line rest = some (d, used)) :
    d.toItem.Spanned line rest used := by
  have hkind := Statement.kind_of_read? h
  obtain ⟨lead, inner, gap, head, last, hlead, hline, hnested, htext, hlast, hused, -, hraw, hsource⟩ :=
    Statement.braces_of_read? h
  have htaken : last.taken d.kind = last.overrun := if_pos hkind.symm
  rw [← htaken] at hraw
  cases hlast with
  | head => exact .ofSpans (hsource.trans hraw) (.block hlead hline hnested htext hused)
  | @proof gap blanks inner' _ hproposition _ hopens _ hnested' htext' =>
    have hgap : gap ++ "by".toList ++ blanks <+: head.behind := (List.prefix_append ..).trans hopens
    refine .ofSpans (hsource.trans hraw)
      (.blocks hlead hline hnested htext (.inl hproposition) hgap hnested' ?_ hused)
    rw [htext']
    simp

theorem StructureType.spanned {d : StructureType} (h : StructureType.read? place line rest = some (d, used)) :
    d.toItem.Spanned line rest used := by
  obtain ⟨_, -, h⟩ := Option.bind_eq_some_iff.mp h
  obtain ⟨block, hblock, h⟩ := Option.bind_eq_some_iff.mp h
  obtain ⟨constraint?, hconstraint, h⟩ := Option.bind_eq_some_iff.mp h
  cases h
  cases constraint? with
  | none => exact .ofFirstBlock (by simp) hblock rfl
  | some constraint =>
    obtain ⟨lead, brace, hlead, hline, hheight, hcolumn, htext, hnested⟩ := firstBlock?_eq_some hblock
    have hopened := mapM_id_eq_some hconstraint
    rw [constraintBlock?, brace.behind_eq hheight hcolumn] at hopened
    split at hopened
    · obtain ⟨column, hbrace, hcapture⟩ := Option.map_eq_some_iff.mp hopened
      rw [Nat.add_assoc] at hcapture
      obtain ⟨last, hlast, -, htext', hnested'⟩ := second_block hheight hcolumn hcapture
      obtain ⟨hgap, htake⟩ := take_braceColumn? hbrace
      have htaken : last.taken .structureType = last.behind := if_neg (by simp)
      have hsource := wholeLines_eq last hlast
      rw [← htaken] at hsource
      refine .ofSpans hsource (.blocks hlead hline hnested htext (.inr ⟨rfl, hgap⟩) (List.take_prefix ..) hnested' ?_
        hlast)
      rw [htext', htake]
      simp
    · cases hopened

theorem InstanceBlock.spanned {d : InstanceBlock} (h : InstanceBlock.read? place line rest = some (d, used)) :
    d.toItem.Spanned line rest used := by
  obtain ⟨_, -, h⟩ := Option.bind_eq_some_iff.mp h
  simp only at h
  split at h
  · obtain ⟨block, hblock, h⟩ := Option.bind_eq_some_iff.mp h
    cases h
    exact .ofFirstBlock (by simp) hblock rfl
  · next hbrace =>
    cases h
    exact .ofSpans rfl (.bare rfl (by simpa using hbrace) rfl)

theorem TypeClass.spanned {d : TypeClass} (h : TypeClass.read? place line rest = some (d, used)) :
    d.toItem.Spanned line rest used := by
  obtain ⟨_, -, h⟩ := Option.bind_eq_some_iff.mp h
  obtain ⟨block, hblock, h⟩ := Option.bind_eq_some_iff.mp h
  cases h
  exact .ofFirstBlock (by simp) hblock rfl

theorem InductiveType.spanned {d : InductiveType} (h : InductiveType.read? place line rest = some (d, used)) :
    d.toItem.Spanned line rest used := by
  obtain ⟨_, -, h⟩ := Option.bind_eq_some_iff.mp h
  obtain ⟨block, hblock, h⟩ := Option.bind_eq_some_iff.mp h
  cases h
  exact .ofFirstBlock (by simp) hblock rfl

theorem Definition.spanned {d : Definition} (h : Definition.read? place line rest = some (d, used)) :
    d.toItem.Spanned line rest used := by
  obtain ⟨_, -, h⟩ := Option.bind_eq_some_iff.mp h
  obtain ⟨block, hblock, h⟩ := Option.bind_eq_some_iff.mp h
  cases h
  exact .ofFirstBlock (by simp) hblock rfl

end Read

/-- The kinds of declarations that stand in a file by themselves. The others are members of a block. -/
def Kind.standsAlone : Kind → Bool
  | .proposition | .postulate | .typeClass | .structureType | .inductiveType | .definition | .instanceBlock => true
  | _ => false

section Alone

variable {place : Place} {line : Line} {rest : List Line} {used : Nat}

theorem TypeClass.standsAlone_expand {d : TypeClass} {e : Declaration} (h : e ∈ d.expand) :
    e.item.kind.standsAlone = false := by
  rcases TypeClass.kind_of_mem_expand h with h | h | h <;> rw [h] <;> rfl

theorem AttributesBlock.standsAlone_located {d : AttributesBlock}
    (h : AttributesBlock.read? place line rest = some (d, used)) {m : Definition} (hm : m ∈ d.located.members) :
    m.kind.standsAlone = false := by
  obtain ⟨block, member, -, hmember, rfl⟩ := AttributesBlock.mem_of_read? h hm
  rcases kind_of_mem_attributeMembers hmember with h | h <;> simp only [h] <;> rfl

theorem DeclaredBy.spanned {d : Declaration} (h : DeclaredBy place line rest d used)
    (halone : d.item.kind.standsAlone = true) : d.item.Spanned line rest used := by
  cases h with
  | instanceBlock h => exact InstanceBlock.spanned h
  | statement h => exact Statement.spanned h
  | typeClass h => exact TypeClass.spanned h
  | classMember _ hmember =>
    rw [TypeClass.standsAlone_expand hmember] at halone
    cases halone
  | structureType h => exact StructureType.spanned h
  | inductiveType h => exact InductiveType.spanned h
  | definition h => exact Definition.spanned h
  | attributeMember h hmember =>
    rw [Declaration.item, AttributesBlock.standsAlone_located h hmember] at halone
    cases halone

end Alone

end AcornCatalog
