import AcornCatalog.Proofs.Declaration.Block
import AcornCatalog.SourceFile

/-! What a file declares, and by which reading. Each declaration of a file was read at one of its lines, by itself or as
a member of a block; what holds of every reading holds of every declaration. -/

namespace AcornCatalog

open Text

/-! ### Members -/

/-- A member of a block begins at one of its lines. -/
theorem mem_membersBy {α : Type} {step : Line → Line → List Line → Option (α × Nat)} {body : List Char} {a : α}
    (h : a ∈ membersBy step body) :
    ∃ above line below used, cut '\n' body = above ++ line :: below ∧ step (trim line) line below = some (a, used) := by
  obtain ⟨k, line, -, hline, ha⟩ := mem_sweep h
  obtain ⟨hlength, rfl⟩ := List.getElem?_eq_some_iff.mp hline
  simp only at ha
  split at ha
  · cases ha
  · split at ha
    · rename_i found used hstep
      obtain rfl := List.mem_singleton.mp ha
      refine ⟨(cut '\n' body).take k, _, _, used, ?_, hstep⟩
      rw [← List.drop_eq_getElem_cons hlength, List.take_append_drop]
    · cases ha

/-! ### Readings -/

/-- The ways in which a declaration comes about at a line, and how many of the lines below it uses. -/
inductive DeclaredBy (place : Place) (line : Line) (rest : List Line) : Declaration → Nat → Prop where
  | instanceBlock {d : InstanceBlock} {used : Nat} (h : InstanceBlock.read? place line rest = some (d, used)) :
      DeclaredBy place line rest (.instanceBlock d) used
  | statement {d : Statement} {used : Nat} (h : Statement.read? place line rest = some (d, used)) :
      DeclaredBy place line rest (.statement d) used
  | typeClass {d : TypeClass} {used : Nat} (h : TypeClass.read? place line rest = some (d, used)) :
      DeclaredBy place line rest (.typeClass d) used
  | classMember {d : TypeClass} {used : Nat} {e : Declaration} (h : TypeClass.read? place line rest = some (d, used))
      (hmember : e ∈ d.expand) : DeclaredBy place line rest e used
  | structureType {d : StructureType} {used : Nat} (h : StructureType.read? place line rest = some (d, used)) :
      DeclaredBy place line rest (.structureType d) used
  | inductiveType {d : InductiveType} {used : Nat} (h : InductiveType.read? place line rest = some (d, used)) :
      DeclaredBy place line rest (.inductiveType d) used
  | definition {d : Definition} {used : Nat} (h : Definition.read? place line rest = some (d, used)) :
      DeclaredBy place line rest (.definition d) used
  | attributeMember {d : AttributesBlock} {used : Nat} {m : Definition}
      (h : AttributesBlock.read? place line rest = some (d, used)) (hmember : m ∈ d.located.members) :
      DeclaredBy place line rest (.definition m) used

/-! ### Kinds -/

section Kinds

variable {place : Place} {line : Line} {rest : List Line} {d : Declaration} {used : Nat}

theorem Statement.kind_of_read? {s : Statement} (h : Statement.read? place line rest = some (s, used)) :
    s.kind = .postulate ∨ s.kind = .proposition := by
  obtain ⟨_, -, h⟩ := Option.bind_eq_some_iff.mp h
  obtain ⟨_, -, h⟩ := Option.bind_eq_some_iff.mp h
  obtain ⟨_, -, h⟩ := Option.bind_eq_some_iff.mp h
  cases h
  simp only
  split
  · exact Or.inl rfl
  · exact Or.inr rfl

theorem InstanceBlock.kind_of_read? {d : InstanceBlock} (h : InstanceBlock.read? place line rest = some (d, used)) :
    d.kind = .instanceBlock := by
  obtain ⟨_, -, h⟩ := Option.bind_eq_some_iff.mp h
  simp only at h
  split at h
  · obtain ⟨_, -, h⟩ := Option.bind_eq_some_iff.mp h
    cases h
    rfl
  · cases h
    rfl

theorem TypeClass.kind_of_read? {d : TypeClass} (h : TypeClass.read? place line rest = some (d, used)) :
    d.kind = .typeClass := by
  obtain ⟨_, -, h⟩ := Option.bind_eq_some_iff.mp h
  obtain ⟨_, -, h⟩ := Option.bind_eq_some_iff.mp h
  cases h
  rfl

theorem StructureType.kind_of_read? {d : StructureType} (h : StructureType.read? place line rest = some (d, used)) :
    d.kind = .structureType := by
  obtain ⟨_, -, h⟩ := Option.bind_eq_some_iff.mp h
  obtain ⟨_, -, h⟩ := Option.bind_eq_some_iff.mp h
  obtain ⟨_, -, h⟩ := Option.bind_eq_some_iff.mp h
  cases h
  rfl

theorem InductiveType.kind_of_read? {d : InductiveType} (h : InductiveType.read? place line rest = some (d, used)) :
    d.kind = .inductiveType := by
  obtain ⟨_, -, h⟩ := Option.bind_eq_some_iff.mp h
  obtain ⟨_, -, h⟩ := Option.bind_eq_some_iff.mp h
  cases h
  rfl

theorem Definition.kind_of_read? {d : Definition} (h : Definition.read? place line rest = some (d, used)) :
    d.kind = .definition := by
  obtain ⟨_, -, h⟩ := Option.bind_eq_some_iff.mp h
  obtain ⟨_, -, h⟩ := Option.bind_eq_some_iff.mp h
  cases h
  rfl

theorem TypeClass.kind_of_mem_expand {d : TypeClass} {e : Declaration} (h : e ∈ d.expand) :
    e.item.kind = .classMethod ∨ e.item.kind = .classField ∨ e.item.kind = .classLaw := by
  obtain ⟨entry, -, he⟩ := List.mem_filterMap.mp h
  cases entry with
  | loose record => cases he
  | member m =>
    cases he
    unfold TypeClass.expandMember
    split
    · exact Or.inl rfl
    · exact Or.inr (Or.inl rfl)
    · exact Or.inr (Or.inr rfl)

theorem kind_of_mem_attributeMembers {target : String} {body : List Char} {m : Definition}
    (h : m ∈ attributeMembers target body) : m.kind = .attributeConstant ∨ m.kind = .attributeMethod := by
  obtain ⟨above, line, below, used, -, hstep⟩ := mem_membersBy h
  simp only [attributeAt] at hstep
  split at hstep
  · cases hstep
    exact Or.inl rfl
  · obtain ⟨name, -, heq⟩ := Option.map_eq_some_iff.mp hstep
    cases heq
    exact Or.inr rfl

theorem TypeClass.mem_of_read? {d : TypeClass} (h : TypeClass.read? place line rest = some (d, used)) {e : Declaration}
    (he : e ∈ d.expand) :
    ∃ block m, firstBlock? line rest = some block ∧ m ∈ classMembers block.content ∧ e = d.expandMember m := by
  obtain ⟨_, -, h⟩ := Option.bind_eq_some_iff.mp h
  obtain ⟨block, hblock, h⟩ := Option.bind_eq_some_iff.mp h
  cases h
  obtain ⟨entry, hentry, he⟩ := List.mem_filterMap.mp he
  obtain ⟨m, hm, rfl⟩ := List.mem_map.mp hentry
  cases he
  exact ⟨block, m, hblock, hm, rfl⟩

theorem AttributesBlock.mem_of_read? {b : AttributesBlock} (h : AttributesBlock.read? place line rest = some (b, used))
    {m : Definition} (hm : m ∈ b.located.members) :
    ∃ block member, firstBlock? line rest = some block ∧ member ∈ attributeMembers b.targetType block.content ∧
      m = { member with location := b.location } := by
  obtain ⟨_, -, h⟩ := Option.bind_eq_some_iff.mp h
  obtain ⟨block, hblock, h⟩ := Option.bind_eq_some_iff.mp h
  cases h
  obtain ⟨member, hmember, rfl⟩ := List.mem_map.mp hm
  exact ⟨block, member, hblock, hmember, rfl⟩

/-- What has the kind of a definition was read as one, by itself or in an attributes block. -/
theorem DeclaredBy.definition_cases (h : DeclaredBy place line rest d used)
    (hkind : d.item.kind = .definition ∨ d.item.kind = .attributeMethod) :
    (∃ e, d = .definition e ∧ Definition.read? place line rest = some (e, used)) ∨
      ∃ b m, d = .definition m ∧ AttributesBlock.read? place line rest = some (b, used) ∧ m ∈ b.located.members ∧
        m.kind = .attributeMethod := by
  cases h with
  | instanceBlock h => simp [Declaration.item, InstanceBlock.kind_of_read? h] at hkind
  | statement h => rcases Statement.kind_of_read? h with h | h <;> simp [Declaration.item, h] at hkind
  | typeClass h => simp [Declaration.item, TypeClass.kind_of_read? h] at hkind
  | classMember _ hmember => rcases TypeClass.kind_of_mem_expand hmember with h | h | h <;> simp [h] at hkind
  | structureType h => simp [Declaration.item, StructureType.kind_of_read? h] at hkind
  | inductiveType h => simp [Declaration.item, InductiveType.kind_of_read? h] at hkind
  | definition h => exact Or.inl ⟨_, rfl, h⟩
  | attributeMember h hmember =>
    obtain ⟨block, member, -, hmem, rfl⟩ := AttributesBlock.mem_of_read? h hmember
    rcases kind_of_mem_attributeMembers hmem with hconstant | hmethod
    · simp [Declaration.item, hconstant] at hkind
    · exact Or.inr ⟨_, _, rfl, h, hmember, hmethod⟩

end Kinds

/-! ### Steps through a file -/

section Steps

variable {P : Declaration → Nat → Prop}

/-- What holds of a step that finds nothing, of one that finds imports, and of one for each reading, holds of every step
    through a file. -/
theorem entriesAt_induction {Q : List Entry × Nat → Prop} {file : SourcePath} {number : Nat} {line : Line}
    {rest : List Line} (nothing : Q ([], 0)) (imports : ∀ is : List Import, Q (is.map .imported, 0))
    (instanceBlock : Q (Entry.ofReading (fun d => [.instanceBlock d]) (InstanceBlock.read? ⟨file, number⟩ line rest)))
    (statement : Q (Entry.ofReading (fun d => [.statement d]) (Statement.read? ⟨file, number⟩ line rest)))
    (typeClass : Q (Entry.ofReading (fun d => .typeClass d :: d.expand) (TypeClass.read? ⟨file, number⟩ line rest)))
    (structureType : Q (Entry.ofReading (fun d => [.structureType d]) (StructureType.read? ⟨file, number⟩ line rest)))
    (inductiveType : Q (Entry.ofReading (fun d => [.inductiveType d]) (InductiveType.read? ⟨file, number⟩ line rest)))
    (definition : Q (Entry.ofReading (fun d => [.definition d]) (Definition.read? ⟨file, number⟩ line rest)))
    (attributes : Q (Entry.ofReading (fun d => d.located.members.map .definition)
      (AttributesBlock.read? ⟨file, number⟩ line rest))) :
    Q (entriesAt file number line rest) := by
  have hite {c : Prop} [Decidable c] {found found' : List Entry × Nat} (h : Q found) (h' : Q found') :
      Q (if c then found else found') := by
    split
    · exact h
    · exact h'
  exact hite nothing <| hite (imports _) <| hite instanceBlock <| hite statement <| hite typeClass <|
    hite structureType <| hite inductiveType <| hite definition <| hite attributes nothing

/-- Whatever a step through a file declares has the property, together with the number of lines that the step uses. -/
def Declares (P : Declaration → Nat → Prop) (found : List Entry × Nat) : Prop :=
  ∀ d, Entry.declared d ∈ found.1 → P d found.2

theorem Declares.imports (is : List Import) : Declares P (is.map .imported, 0) := by
  intro d h
  obtain ⟨i, -, heq⟩ := List.mem_map.mp h
  cases heq

theorem Declares.ofReading {α : Type} {declare : α → List Declaration} {reading : Option (α × Nat)}
    (h : ∀ a used, reading = some (a, used) → ∀ d ∈ declare a, P d used) :
    Declares P (Entry.ofReading declare reading) := by
  cases reading with
  | none => exact .imports []
  | some r =>
    intro d hd
    obtain ⟨e, he, heq⟩ := List.mem_map.mp hd
    cases heq
    exact h r.1 r.2 rfl d he

theorem entriesAt_declares (file : SourcePath) (number : Nat) (line : Line) (rest : List Line) :
    Declares (DeclaredBy ⟨file, number⟩ line rest) (entriesAt file number line rest) := by
  refine entriesAt_induction (.imports []) .imports
    (.ofReading fun _ _ h _ hd => List.mem_singleton.mp hd ▸ .instanceBlock h)
    (.ofReading fun _ _ h _ hd => List.mem_singleton.mp hd ▸ .statement h)
    (.ofReading fun _ _ h d hd => ?_)
    (.ofReading fun _ _ h _ hd => List.mem_singleton.mp hd ▸ .structureType h)
    (.ofReading fun _ _ h _ hd => List.mem_singleton.mp hd ▸ .inductiveType h)
    (.ofReading fun _ _ h _ hd => List.mem_singleton.mp hd ▸ .definition h)
    (.ofReading fun _ _ h d hd => ?_)
  · rcases List.mem_cons.mp hd with rfl | hd
    · exact .typeClass h
    · exact .classMember h hd
  · obtain ⟨m, hm, rfl⟩ := List.mem_map.mp hd
    exact .attributeMember h hm

end Steps

namespace SourceFile

/-- A declaration of a file was read at one of its lines. -/
theorem declaredBy_of_mem {file : SourcePath} {ls : List Line} {d : Declaration}
    (h : d ∈ (ofLines file ls).declarations) :
    ∃ number line rest e used, number < ls.length ∧ ls.drop number = line :: rest ∧
      DeclaredBy ⟨file, number⟩ line rest e used ∧ d = e.enrich file := by
  obtain ⟨entry, hentry, heq⟩ := List.mem_filterMap.mp h
  cases entry with
  | imported i => cases heq
  | declared e =>
    cases heq
    obtain ⟨number, line, -, hline, hmem⟩ := mem_sweep hentry
    rw [Nat.zero_add] at hmem
    obtain ⟨hlength, rfl⟩ := List.getElem?_eq_some_iff.mp hline
    exact ⟨number, _, _, e, _, hlength, List.drop_eq_getElem_cons hlength,
      entriesAt_declares file number _ _ e hmem, rfl⟩

end SourceFile

end AcornCatalog
