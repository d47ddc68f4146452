import AcornCatalog.Proofs.Declaration.Naming
import AcornCatalog.Proofs.Identifier.Lookup
import AcornCatalog.Proofs.Text.Line

/-! The names under which the declarations of files are found. A declaration is found under its own name. A member of a
class is a declaration with the very name that the class keeps it under. A binding of an instance is none: its name has
the type in front already, and the instance keeps it under a name with the instance in front of that. So the name of a
binding leads somewhere only if a class or an attributes block declares a member of that name. -/

namespace AcornCatalog

open Text

/-! ### Dots -/

/-- How many dots a name has. -/
def dots (name : String) : Nat := name.toList.count '.'

theorem dots_behind (owner own : String) : dots (owner ++ "." ++ own) = dots owner + 1 + dots own := by
  simp only [dots, String.toList_append, List.count_append]
  rfl

theorem dots_of_isName {name : List Char} (h : Header.IsName name) : dots (String.ofList name) = 0 := by
  rw [dots, String.toList_ofList, List.count_eq_zero]
  exact h.not_mem rfl

section Dotted

variable {place : Place} {item : Item}

theorem Item.ReadAt.dots_eq_zero (h : item.ReadAt place) (hkind : item.kind.isQualifiedMember = false) :
    dots item.name = 0 := List.count_eq_zero.mpr (h.no_dot hkind)

theorem Item.ReadAt.dots_le_one (h : item.ReadAt place) : dots item.name ≤ 1 := by
  cases hkind : item.kind.isQualifiedMember with
  | false => exact (h.dots_eq_zero hkind).le.trans (Nat.zero_le 1)
  | true =>
    obtain ⟨type, own, htype, hown, heq⟩ := h.one_dot hkind
    have hown : '.' ∉ own := hown.name.not_mem rfl
    simp [dots, heq, List.count_eq_zero.mpr htype, List.count_eq_zero.mpr hown]

end Dotted

/-- The first dot divides a name in one way only. -/
theorem eq_of_behind_eq {owner owner' own own' : String} (howner : dots owner = 0) (howner' : dots owner' = 0)
    (h : owner ++ "." ++ own = owner' ++ "." ++ own') : owner = owner' ∧ own = own' := by
  have hread {a b : String} (ha : dots a = 0) : Reader.upTo '.' (a ++ "." ++ b).toList = some (a.toList, b.toList) :=
    Reader.upTo_eq_some.mpr ⟨List.count_eq_zero.mp ha, by simp⟩
  have hsame := hread (b := own) howner
  rw [h, hread howner'] at hsame
  simp only [Option.some.injEq, Prod.mk.injEq] at hsame
  exact ⟨String.toList_inj.mp hsame.1.symm, String.toList_inj.mp hsame.2.symm⟩

/-! ### Members -/

section Members

variable {place : Place} {line : Line} {rest : List Line} {used : Nat} {member : String}

/-- A class that was read keeps its members under the names that they have as declarations. -/
theorem TypeClass.exists_expand_of_mem {t : TypeClass} (h : TypeClass.read? place line rest = some (t, used))
    (hmember : member ∈ (Declaration.typeClass t).memberNames) : ∃ e ∈ t.expand, e.name = t.name ++ "." ++ member := by
  obtain ⟨_, -, h⟩ := Option.bind_eq_some_iff.mp h
  obtain ⟨block, -, h⟩ := Option.bind_eq_some_iff.mp h
  cases h
  obtain ⟨entry, hentry, hname⟩ := List.mem_filterMap.mp hmember
  obtain ⟨m, hm, rfl⟩ := List.mem_map.mp hentry
  cases hname
  refine ⟨_, List.mem_filterMap.mpr ⟨.member m, hentry, rfl⟩, ?_⟩
  unfold expandMember
  split <;> rfl

theorem TypeClass.expand_cases {t : TypeClass} {e : Declaration} (h : e ∈ t.expand) :
    (∃ d, e = .definition d) ∨ ∃ d, e = .statement d := by
  obtain ⟨entry, -, he⟩ := List.mem_filterMap.mp h
  cases entry with
  | loose record => cases he
  | member m =>
    cases he
    unfold expandMember
    split
    · exact Or.inl ⟨_, rfl⟩
    · exact Or.inl ⟨_, rfl⟩
    · exact Or.inr ⟨_, rfl⟩

/-- The binding of an instance has one dot in its name, behind the type. -/
theorem InstanceBlock.dots_of_mem {d : InstanceBlock} (h : InstanceBlock.read? place line rest = some (d, used))
    {m : Definition} (hm : m ∈ d.members) : dots m.name = 1 := by
  obtain ⟨⟨type, «class»⟩, hheader, h⟩ := Option.bind_eq_some_iff.mp h
  simp only at h
  split at h
  · obtain ⟨block, -, h⟩ := Option.bind_eq_some_iff.mp h
    cases h
    obtain ⟨above, l, below, _, -, hstep⟩ := mem_membersBy hm
    obtain ⟨own, hown, heq⟩ := Option.map_eq_some_iff.mp hstep
    cases heq
    rw [dots_behind, dots_of_isName (Header.reads_instanceOf.read? hheader).1,
      dots_of_isName (Header.reads_binding.read? hown).name]
  · cases h
    cases hm

theorem StructureType.fields_of_read? {d : StructureType} (h : StructureType.read? place line rest = some (d, used)) :
    d.fields = [] := by
  obtain ⟨_, -, h⟩ := Option.bind_eq_some_iff.mp h
  obtain ⟨_, -, h⟩ := Option.bind_eq_some_iff.mp h
  obtain ⟨_, -, h⟩ := Option.bind_eq_some_iff.mp h
  cases h
  rfl

/-- Only classes and instances keep members. -/
theorem DeclaredBy.memberNames_cases {d : Declaration} (h : DeclaredBy place line rest d used)
    (hmember : member ∈ d.memberNames) :
    (∃ t, d = .typeClass t ∧ ∃ e ∈ t.expand, e.name = d.name ++ "." ++ member) ∨
      ∃ i, d = .instanceBlock i ∧ dots member = 1 ∧ ∃ m ∈ i.members, m.name = member := by
  cases h with
  | instanceBlock h =>
    obtain ⟨m, hm, rfl⟩ := List.mem_map.mp hmember
    exact Or.inr ⟨_, rfl, InstanceBlock.dots_of_mem h hm, m, hm, rfl⟩
  | typeClass h => exact Or.inl ⟨_, rfl, TypeClass.exists_expand_of_mem h hmember⟩
  | classMember h he => rcases TypeClass.expand_cases he with ⟨d, rfl⟩ | ⟨d, rfl⟩ <;> cases hmember
  | structureType h => simp [Declaration.memberNames, StructureType.fields_of_read? h] at hmember
  | statement h => cases hmember
  | inductiveType h => cases hmember
  | definition h => cases hmember
  | attributeMember h hm => cases hmember

end Members

/-! ### Files -/

@[simp] theorem Declaration.name_enrich (file : SourcePath) (d : Declaration) : (d.enrich file).name = d.name := by
  rw [name, enrich, item_modify]
  rfl

@[simp] theorem Declaration.memberNames_enrich (file : SourcePath) (d : Declaration) :
    (d.enrich file).memberNames = d.memberNames := by
  cases d <;> rfl

/-- A step that finds a class finds its members with it. -/
def Expands (found : List Entry × Nat) : Prop :=
  ∀ t, Entry.declared (.typeClass t) ∈ found.1 → ∀ e ∈ t.expand, Entry.declared e ∈ found.1

theorem Expands.ofReading {α : Type} {declare : α → List Declaration} {reading : Option (α × Nat)}
    (h : ∀ a t, .typeClass t ∈ declare a → ∀ e ∈ t.expand, e ∈ declare a) :
    Expands (Entry.ofReading declare reading) := by
  cases reading with
  | none => exact fun t ht => by cases ht
  | some read =>
    intro t ht e he
    obtain ⟨d, hd, heq⟩ := List.mem_map.mp ht
    cases heq
    exact List.mem_map_of_mem (h read.1 t hd e he)

theorem Expands.ofOther {α : Type} {declare : α → Declaration} {reading : Option (α × Nat)}
    (h : ∀ a t, declare a ≠ .typeClass t) : Expands (Entry.ofReading (fun a => [declare a]) reading) :=
  .ofReading fun a t ht => absurd (List.mem_singleton.mp ht).symm (h a t)

theorem entriesAt_expands (file : SourcePath) (number : Nat) (line : Line) (rest : List Line) :
    Expands (entriesAt file number line rest) := by
  refine entriesAt_induction (fun t ht => by cases ht) (fun is t ht => ?_) (.ofOther fun _ _ h => by cases h)
    (.ofOther fun _ _ h => by cases h) (.ofReading fun d t ht e he => ?_) (.ofOther fun _ _ h => by cases h)
    (.ofOther fun _ _ h => by cases h) (.ofOther fun _ _ h => by cases h) (.ofReading fun d t ht => ?_)
  · obtain ⟨i, -, heq⟩ := List.mem_map.mp ht
    cases heq
  · rcases List.mem_cons.mp ht with heq | ht
    · cases heq
      exact List.mem_cons_of_mem _ he
    · rcases TypeClass.expand_cases ht with ⟨d, heq⟩ | ⟨d, heq⟩ <;> cases heq
  · obtain ⟨m, -, heq⟩ := List.mem_map.mp ht
    cases heq

namespace SourceFile

variable {file : SourcePath} {ls : List Line}

/-- A file declares the members of the classes that it declares. -/
theorem exists_of_mem_expand {t : TypeClass} (ht : .typeClass t ∈ (ofLines file ls).declarations) {e : Declaration}
    (he : e ∈ t.expand) : ∃ d ∈ (ofLines file ls).declarations, d.name = e.name := by
  obtain ⟨entry, hentry, heq⟩ := List.mem_filterMap.mp ht
  obtain ⟨number, line, rest, hstep, hsub⟩ := exists_step_subset_sweep hentry
  cases entry with
  | imported i => cases heq
  | declared d =>
    cases d <;> cases heq
    have hmem := hsub (entriesAt_expands file number line rest _ hstep e he)
    exact ⟨e.enrich file, List.mem_filterMap.mpr ⟨_, hmem, rfl⟩, Declaration.name_enrich file e⟩

/-- What a declaration of a file defines is declared in the file, unless it is a binding of an instance, which comes
    with the instance in front. -/
theorem definedNames_cases {d : Declaration} (hd : d ∈ (ofLines file ls).declarations) {name : String}
    (hname : name ∈ d.definedNames) :
    (∃ e ∈ (ofLines file ls).declarations, e.name = name) ∨
      ∃ i, d = .instanceBlock i ∧ ∃ m ∈ i.members, dots m.name = 1 ∧ name = i.name ++ "." ++ m.name := by
  rcases List.mem_cons.mp hname with rfl | hname
  · exact Or.inl ⟨d, hd, rfl⟩
  · obtain ⟨member, hmember, rfl⟩ := List.mem_map.mp hname
    obtain ⟨number, line, rest, e, used, -, -, hby, rfl⟩ := declaredBy_of_mem hd
    rw [Declaration.memberNames_enrich] at hmember
    rcases hby.memberNames_cases hmember with ⟨t, rfl, e, he, heq⟩ | ⟨i, rfl, hdots, m, hm, rfl⟩
    · left
      rw [Declaration.name_enrich, ← heq]
      exact exists_of_mem_expand hd he
    · exact Or.inr ⟨_, rfl, m, hm, hdots, rfl⟩

/-- The name of an instance has no dot, and those of its bindings have one each. -/
theorem dots_of_instanceBlock {i : InstanceBlock} (hi : .instanceBlock i ∈ (ofLines file ls).declarations) :
    dots i.name = 0 ∧ ∀ m ∈ i.members, dots m.name = 1 := by
  obtain ⟨number, line, rest, e, used, -, -, hby, heq⟩ := declaredBy_of_mem hi
  cases hby with
  | instanceBlock h =>
    cases heq
    exact ⟨(InstanceBlock.readAt h).dots_eq_zero (by rw [InstanceBlock.kind_of_read? h]; rfl),
      fun m hm => InstanceBlock.dots_of_mem h hm⟩
  | classMember h he => rcases TypeClass.expand_cases he with ⟨d, rfl⟩ | ⟨d, rfl⟩ <;> cases heq
  | statement h => cases heq
  | typeClass h => cases heq
  | structureType h => cases heq
  | inductiveType h => cases heq
  | definition h => cases heq
  | attributeMember h hm => cases heq

/-- Everything that some files declare, file by file. -/
def declarationsIn (files : List (SourcePath × List Char)) : List Declaration :=
  files.flatMap fun f => (ofText f.1 f.2).declarations

end SourceFile

/-! ### Lookup -/

namespace Identifier

open SourceFile

section Lookup

variable {ds : List Declaration} {name : String}

theorem isSome_definition?_iff : (definition? name ds).isSome = true ↔ ∃ d ∈ ds, name ∈ d.definedNames := by
  rw [Option.isSome_iff_ne_none, ne_eq, definition?_eq_none_iff]
  simp

theorem mem_origins_iff : name ∈ (origins ds).map (·.1) ↔ ∃ d ∈ ds, name ∈ d.definedNames := by
  rw [keys_origins, keys_index, List.mem_eraseDups, List.mem_flatMap]

theorem mem_of_definition? {d : Declaration} (h : definition? name ds = some d) : d ∈ ds ∧ name ∈ d.definedNames := by
  obtain ⟨upper, lower, rfl, hname, -⟩ := definition?_eq_some_iff.mp h
  exact ⟨by simp, hname⟩

/-- A class or an attributes block declares a member of the name. -/
def DeclaresMember (ds : List Declaration) (name : String) : Prop :=
  ∃ d ∈ ds, d.item.kind.isQualifiedMember = true ∧ d.name = name

end Lookup

section Files

variable {files : List (SourcePath × List Char)} {d : Declaration} {name : String}

/-- A name with one dot is defined exactly if it is that of a member of a class or of an attributes block. -/
theorem exists_defined_iff (hname : dots name = 1) :
    (∃ d ∈ declarationsIn files, name ∈ d.definedNames) ↔ DeclaresMember (declarationsIn files) name := by
  constructor
  · rintro ⟨d, hd, hdefined⟩
    obtain ⟨f, hf, hd⟩ := List.mem_flatMap.mp hd
    rcases definedNames_cases hd hdefined with ⟨e, he, rfl⟩ | ⟨i, rfl, m, -, hdots, rfl⟩
    · refine ⟨e, List.mem_flatMap.mpr ⟨f, hf, he⟩, ?_, rfl⟩
      obtain ⟨⟨number, -, hat⟩, -⟩ := declaredIn_of_mem he
      refine Bool.of_not_eq_false fun hkind => ?_
      rw [Declaration.name, hat.dots_eq_zero hkind] at hname
      cases hname
    · rw [dots_behind, hdots] at hname
      omega
  · rintro ⟨d, hd, -, rfl⟩
    exact ⟨d, hd, List.mem_cons_self ..⟩

/-- What is found under a name of two dots is an instance of the name in front of the first. -/
theorem instanceBlock_of_definition? {owner own : String} (howner : dots owner = 0) (hown : dots own = 1)
    (h : definition? (owner ++ "." ++ own) (declarationsIn files) = some d) :
    ∃ i, d = .instanceBlock i ∧ i.name = owner ∧ own ∈ i.members.map (·.name) := by
  obtain ⟨hd, hdefined⟩ := mem_of_definition? h
  obtain ⟨f, -, hd⟩ := List.mem_flatMap.mp hd
  rcases definedNames_cases hd hdefined with ⟨e, he, hname⟩ | ⟨i, rfl, m, hm, -, heq⟩
  · obtain ⟨⟨number, -, hat⟩, -⟩ := declaredIn_of_mem he
    have hdots := hat.dots_le_one
    rw [show e.item.name = owner ++ "." ++ own from hname, dots_behind] at hdots
    omega
  · obtain ⟨rfl, rfl⟩ := eq_of_behind_eq howner (dots_of_instanceBlock hd).1 heq
    exact ⟨i, rfl, rfl, List.mem_map_of_mem hm⟩

end Files

/-- A binding of an instance, in any files. Its name is found, and has an origin, exactly if a class or an attributes
    block declares a member of that name, and never leads to an instance. The instance is found, among those of its name
    that have the binding, with its own name in front of that of the binding. -/
theorem binding_found_iff (files : List (SourcePath × List Char)) {i : InstanceBlock} {m : Definition}
    (hi : .instanceBlock i ∈ declarationsIn files) (hm : m ∈ i.members) :
    ((definition? m.name (declarationsIn files)).isSome = true ↔ DeclaresMember (declarationsIn files) m.name) ∧
      (m.name ∈ (origins (declarationsIn files)).map (·.1) ↔ DeclaresMember (declarationsIn files) m.name) ∧
      (∀ e, definition? m.name (declarationsIn files) ≠ some (.instanceBlock e)) ∧
      ∃ e, definition? (i.name ++ "." ++ m.name) (declarationsIn files) = some (.instanceBlock e) ∧ e.name = i.name ∧
        m.name ∈ e.members.map (·.name) := by
  obtain ⟨f, hf, hfile⟩ := List.mem_flatMap.mp hi
  obtain ⟨hzero, hone⟩ := dots_of_instanceBlock hfile
  have hdots := hone m hm
  refine ⟨isSome_definition?_iff.trans (exists_defined_iff hdots), mem_origins_iff.trans (exists_defined_iff hdots),
    fun e he => ?_, ?_⟩
  · obtain ⟨hmem, hdefined⟩ := mem_of_definition? he
    obtain ⟨g, -, hmem⟩ := List.mem_flatMap.mp hmem
    obtain ⟨hzero', hone'⟩ := dots_of_instanceBlock hmem
    -- the name has one dot, that of an instance none, and that of a binding behind its instance two
    rcases List.mem_cons.mp hdefined with heq | hmember
    · rw [heq, Declaration.name, Declaration.item, hzero'] at hdots
      cases hdots
    · obtain ⟨k, hk, heq⟩ := List.mem_map.mp hmember
      obtain ⟨m', hm', rfl⟩ := List.mem_map.mp hk
      rw [← heq, dots_behind, hone' m' hm'] at hdots
      omega
  · have hdefined : i.name ++ "." ++ m.name ∈ (Declaration.instanceBlock i).definedNames :=
      List.mem_cons_of_mem _ (List.mem_map_of_mem (List.mem_map_of_mem hm))
    obtain ⟨d, hd⟩ := Option.isSome_iff_exists.mp (isSome_definition?_iff.mpr ⟨_, hi, hdefined⟩)
    obtain ⟨e, rfl, hname, hmember⟩ := instanceBlock_of_definition? hzero hdots hd
    exact ⟨e, hd, hname, hmember⟩

/-- Of two bindings, one has the name of a method and is found, and the other is found behind its instance only. -/
theorem binding_found_iff_int :
    let files : List (SourcePath × List Char) := [(⟨0, ["int.ac"]⟩, fileText (["attributes Int \x7b",
      "    define neg(self) -> Int \x7b", "        zero - self", "    \x7d", "\x7d", "instance Int: Group \x7b",
      "    let neg: (Int) -> Int = Int.neg", "", "    let add: (Int, Int) -> Int = plus", "\x7d"].map String.toList))]
    ∃ i neg add, .instanceBlock i ∈ declarationsIn files ∧ i.members = [neg, add] ∧ neg.name = "Int.neg" ∧
      add.name = "Int.add" ∧ (definition? "Int.neg" (declarationsIn files)).isSome = true ∧
        definition? "Int.add" (declarationsIn files) = none ∧ "Int.add" ∉ (origins (declarationsIn files)).map (·.1) ∧
          ∃ e, definition? "Int_Group_instance.Int.add" (declarationsIn files) = some (.instanceBlock e) := by
  intro files
  obtain ⟨method, i, neg, add, hds, hmethod, hkind, hi, hname, hmembers, hneg, hadd⟩ :
      ∃ method i neg add, declarationsIn files = [method, .instanceBlock i] ∧ method.name = "Int.neg" ∧
        method.item.kind = .attributeMethod ∧ i.kind = .instanceBlock ∧ i.name = "Int_Group_instance" ∧
          i.members = [neg, add] ∧ neg.name = "Int.neg" ∧ add.name = "Int.add" :=
    ⟨_, _, _, _, rfl, rfl, rfl, rfl, rfl, rfl, rfl, rfl⟩
  have hmem : .instanceBlock i ∈ declarationsIn files := hds ▸ List.mem_cons_of_mem _ (List.mem_cons_self ..)
  obtain ⟨hfound, -⟩ := binding_found_iff files hmem (m := neg) (hmembers ▸ List.mem_cons_self ..)
  obtain ⟨hlost, horigin, -, e, he, -⟩ :=
    binding_found_iff files hmem (m := add) (hmembers ▸ List.mem_cons_of_mem _ (List.mem_cons_self ..))
  have hnone : ¬DeclaresMember (declarationsIn files) add.name := by
    rintro ⟨d, hd, hmember, heq⟩
    rw [hds] at hd
    rcases List.mem_cons.mp hd with rfl | hd
    · rw [hmethod, hadd] at heq
      exact absurd heq (by decide)
    · rw [List.mem_singleton.mp hd, Declaration.item, hi] at hmember
      cases hmember
  rw [hneg] at hfound
  rw [hadd] at hlost horigin hnone
  rw [hname, hadd] at he
  refine ⟨i, neg, add, hmem, hmembers, hneg, hadd, hfound.mpr ⟨method, hds ▸ List.mem_cons_self .., ?_, hmethod⟩,
    ?_, fun h => hnone (horigin.mp h), e, he⟩
  · rw [hkind]
    rfl
  · exact Option.not_isSome_iff_eq_none.mp fun h => hnone (hlost.mp h)

end Identifier

end AcornCatalog
