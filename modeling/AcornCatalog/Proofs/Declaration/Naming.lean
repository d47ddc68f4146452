import AcornCatalog.Proofs.Declaration.Reading
import AcornCatalog.Proofs.SourceFile.Declared
import AcornCatalog.Proofs.Text.Reader

/-! The names that declarations have. No name has a colon in it, and a dot only that of a member, between the name of
its type and its own. -/

namespace AcornCatalog

open Text Reader

/-! ### Names in headers -/

namespace Header

/-- A text of which every character may stand in a name. -/
def IsName (cs : List Char) : Prop := ∀ c ∈ cs, isNameChar c = true

instance (cs : List Char) : Decidable (IsName cs) := List.decidableBAll _ cs

theorem IsName.not_mem {cs : List Char} (h : IsName cs) {c : Char} (hc : isNameChar c = false) : c ∉ cs :=
  fun hmem => by simp [h c hmem] at hc

theorem IsName.append {cs ds : List Char} (hcs : IsName cs) (hds : IsName ds) : IsName (cs ++ ds) :=
  fun c hc => (List.mem_append.mp hc).elim (hcs c) (hds c)

theorem isNameChar_eq (c : Char) : isNameChar c = (c.isUpper || c.isLower || c.isDigit || c == '_') := rfl

theorem isNameChar_of_isUpper {c : Char} (h : c.isUpper = true) : isNameChar c = true := by
  rw [isNameChar_eq, h]
  rfl

theorem isNameChar_of_isNameStart {c : Char} (h : isNameStart c = true) : isNameChar c = true := by
  change (c.isUpper || c.isLower || c == '_') = true at h
  simp only [isNameChar_eq, Bool.or_eq_true] at h ⊢
  exact h.imp_left Or.inl

theorem isNameChar_of_isLowerStart {c : Char} (h : isLowerStart c = true) : isNameChar c = true := by
  simp only [isLowerStart, isNameChar_eq, Bool.or_eq_true] at h ⊢
  exact h.imp_left fun h => Or.inl (Or.inr h)

theorem isNameChar_of_isLowerChar {c : Char} (h : isLowerChar c = true) : isNameChar c = true := by
  simp only [isLowerChar, isNameChar_eq, Bool.or_eq_true] at h ⊢
  exact h.imp_left (Or.imp_left Or.inr)

theorem isNameStart_of_isUpper {c : Char} (h : c.isUpper = true) : isNameStart c = true := by
  change (c.isUpper || c.isLower || c == '_') = true
  rw [h]
  rfl

theorem isNameStart_of_isLowerStart {c : Char} (h : isLowerStart c = true) : isNameStart c = true := by
  change (c.isUpper || c.isLower || c == '_') = true
  simp only [isLowerStart, Bool.or_eq_true] at h ⊢
  exact h.imp_left Or.inr

theorem isLowerChar_of_isLowerStart {c : Char} (h : isLowerStart c = true) : isLowerChar c = true := by
  simp only [isLowerStart, isLowerChar, Bool.or_eq_true] at h ⊢
  exact h.imp_left Or.inl

theorem isUpper_eq_false_of_isLowerChar {c : Char} (h : isLowerChar c = true) : c.isUpper = false := by
  cases hc : c.isUpper with
  | false => rfl
  | true =>
    obtain ⟨hfrom, hto⟩ : 'A'.val ≤ c.val ∧ c.val ≤ 'Z'.val := of_decide_eq_true hc
    rcases Bool.or_eq_true_iff.mp h with h | hline
    · rcases Bool.or_eq_true_iff.mp h with hlower | hdigit
      · obtain ⟨hleast, -⟩ := Bool.and_eq_true_iff.mp hlower
        exact absurd (UInt32.le_trans (of_decide_eq_true hleast) hto) (by decide)
      · obtain ⟨-, hmost⟩ := Bool.and_eq_true_iff.mp hdigit
        exact absurd (UInt32.le_trans hfrom (of_decide_eq_true hmost)) (by decide)
    · rw [beq_iff_eq.mp hline] at hto
      exact absurd hto (by decide)

theorem isLowerStart_eq_false_of_isUpper {c : Char} (h : c.isUpper = true) : isLowerStart c = false := by
  refine Bool.eq_false_iff.mpr fun hc => ?_
  rw [isUpper_eq_false_of_isLowerChar (isLowerChar_of_isLowerStart hc)] at h
  cases h

/-- A name that begins with a character in `first`. -/
structure NameFrom (first : Char → Bool) (w : List Char) : Prop where
  head : w.head?.any first = true
  name : IsName w

theorem reads_nameFrom {first next : Char → Bool} (hfirst : ∀ c, first c = true → isNameChar c = true)
    (hnext : ∀ c, next c = true → isNameChar c = true) : Reads (word first next) (NameFrom first) :=
  fun cs w rest h => ⟨reads_word_head cs w rest h, reads_word hfirst hnext cs w rest h⟩

section Words

variable {first p q : Char → Bool} {w rest cs : List Char}

theorem NameFrom.exists_cons (h : NameFrom first w) : ∃ c run, w = c :: run ∧ first c = true ∧ IsName run := by
  obtain ⟨hhead, hname⟩ := h
  cases w with
  | nil => cases hhead
  | cons c run => exact ⟨c, run, rfl, hhead, fun d hd => hname d (List.mem_cons_of_mem c hd)⟩

theorem NameFrom.mono (h : NameFrom p w) (hpq : ∀ c, p c = true → q c = true) : NameFrom q w := by
  obtain ⟨c, run, rfl, hc, -⟩ := h.exists_cons
  exact ⟨hpq c hc, h.name⟩

theorem eq_append_of_word {next : Char → Bool} (h : word first next cs = some (w, rest)) : cs = w ++ rest := by
  obtain ⟨⟨c, behind⟩, hone, hspan⟩ := Option.bind_eq_some_iff.mp h
  obtain ⟨-, rfl⟩ := one_eq_some.mp hone
  cases hspan
  rw [List.cons_append, List.takeWhile_append_dropWhile]

theorem word_eq_some (hfirst : ∀ c, first c = true → isNameChar c = true) {next : Char → Bool}
    (hnext : ∀ c, next c = true → isNameChar c = true) (h : word first next cs = some (w, rest)) :
    NameFrom first w ∧ cs = w ++ rest :=
  ⟨reads_nameFrom hfirst hnext cs w rest h, eq_append_of_word h⟩

/-- A word that is not touched by more of its kind is read whole. -/
theorem word_append (h : NameFrom first w) (hrest : ∀ c ∈ rest.head?, isNameChar c = false) :
    word first isNameChar (w ++ rest) = some (w, rest) := by
  obtain ⟨c, run, rfl, hc, hrun⟩ := h.exists_cons
  exact word_cons_append hc hrun hrest

theorem word_stops {next : Char → Bool} (h : word first next cs = some (w, rest)) :
    ∀ c ∈ rest.head?, next c = false := by
  obtain ⟨⟨c, behind⟩, -, hspan⟩ := Option.bind_eq_some_iff.mp h
  cases hspan
  intro d hd
  have := List.head?_dropWhile_not next behind
  rw [Option.mem_def.mp hd] at this
  simpa using this

/-- The words that are read, and what stands behind them. -/
theorem word_eq_some_iff {next : Char → Bool} (hfirst : ∀ c, first c = true → next c = true) :
    word first next cs = some (w, rest) ↔
      w.head?.any first = true ∧ (∀ c ∈ w, next c = true) ∧ (∀ c ∈ rest.head?, next c = false) ∧ cs = w ++ rest := by
  constructor
  · intro h
    exact ⟨reads_word_head cs w rest h, reads_word hfirst (fun _ => id) cs w rest h, word_stops h, eq_append_of_word h⟩
  · rintro ⟨hhead, hnext, hrest, rfl⟩
    cases w with
    | nil => cases hhead
    | cons c run => exact word_cons_append hhead (fun d hd => hnext d (List.mem_cons_of_mem _ hd)) hrest

end Words

theorem reads_typeName : Reads typeName IsName :=
  reads_word (fun _ => isNameChar_of_isUpper) fun _ => id

theorem reads_functionName : Reads functionName (NameFrom isLowerStart) :=
  reads_nameFrom (fun _ => isNameChar_of_isLowerStart) fun _ => isNameChar_of_isLowerChar

theorem reads_statement {kind : String} : Reads (statement kind) IsName :=
  .bind fun _ => reads_word (fun _ => isNameChar_of_isNameStart) fun _ => id

theorem reads_className : Reads className fun r => IsName r.1 :=
  reads_typeName.andThen fun _ hname => .bind fun _ => .pure hname

theorem reads_gluedClassName : Reads gluedClassName fun r => IsName r.1 :=
  reads_typeName.andThen fun _ hword => .ite
    (fun _ => .bind fun _ => .bind fun _ => .bind fun _ => .pure fun c hc => hword c (List.mem_of_mem_take hc)) .failure

theorem reads_typeClass : Reads typeClass fun r => IsName r.2.1 :=
  .bind fun _ => .bind fun _ => (Reads.orElse reads_className reads_gluedClassName).andThen fun _ hname => .pure hname

theorem reads_typeDeclaration {kind : String} : Reads (typeDeclaration kind) fun r => IsName r.1 :=
  .bind fun _ => reads_typeName.andThen fun _ hname => .bind fun _ => .bind fun _ => .bind fun _ => .pure hname

theorem reads_definition : Reads definition (NameFrom isLowerStart) := .bind fun _ => reads_functionName

theorem reads_instanceOf : Reads instanceOf fun r => IsName r.1 ∧ IsName r.2 :=
  .bind fun _ => reads_typeName.andThen fun _ htype => .bind fun _ => .bind fun _ =>
    reads_typeName.andThen fun _ hclass => .pure ⟨htype, hclass⟩

theorem reads_binding : Reads binding (NameFrom isNameChar) :=
  .bind fun _ => (reads_nameFrom (fun _ => id) fun _ => id).andThen fun _ hname =>
    .bind fun _ => .bind fun _ => .pure hname

theorem reads_classField : Reads classField fun r => NameFrom isLowerStart r.1 :=
  reads_functionName.andThen fun _ hname => .bind fun _ => .bind fun _ => .bind fun _ => .bind fun _ =>
    .bind fun _ => .pure hname

theorem reads_classMember : Reads classMember fun r => NameFrom isLowerStart r.1 :=
  reads_functionName.andThen fun _ hname => .bind fun _ => .bind fun _ => .bind fun _ => .bind fun _ => .pure hname

/-- A type as written has names, brackets, commas and blanks in it, but neither a colon nor a dot. -/
theorem reads_attributes {c : Char} (hc : c = ':' ∨ c = '.') : Reads attributes fun target => c ∉ target := by
  refine .bind fun _ => .bind fun _ => (reads_word (p := (· != c)) ?_ ?_).andThen fun target htarget =>
    .bind fun _ => .pure fun hmem => ?_
  · intro d hd
    refine bne_iff_ne.mpr ?_
    rintro rfl
    rcases hc with rfl | rfl <;> exact absurd hd (by decide)
  · intro d hd
    refine bne_iff_ne.mpr ?_
    rintro rfl
    rcases hc with rfl | rfl <;> exact absurd hd (by decide)
  · have hmem : c ∈ target :=
      List.mem_reverse.mp ((List.dropWhile_sublist _).subset (List.mem_reverse.mp hmem))
    simpa using htarget c hmem

theorem mem_bareType {held : Option (List Char)} {cs : List Char} {c : Char} (h : c ∈ bareType held cs) :
    c ∈ held.getD [] ∨ c ∈ cs ∨ c = '[' := by
  fun_induction bareType held cs with
  | case1 held => exact Or.inl h
  | case2 cs ih =>
    rcases ih h with hheld | hcs | hbracket
    · exact Or.inr (Or.inr (List.mem_singleton.mp hheld))
    · exact Or.inr (Or.inl (List.mem_cons_of_mem _ hcs))
    · exact Or.inr (Or.inr hbracket)
  | case3 d cs hd ih => grind
  | case4 cs text ih => grind
  | case5 cs text hclose ih => grind
  | case6 d cs text hclose hfeed ih => grind

end Header

/-! ### Members -/

theorem ClassMember.name_of_mem_classMembers {body : List Char} {m : ClassMember} (h : m ∈ classMembers body) :
    ∃ own, Header.NameFrom isLowerStart own ∧ m.name = String.ofList own := by
  obtain ⟨above, line, below, used, -, hstep⟩ := mem_membersBy h
  unfold classMemberAt at hstep
  split at hstep
  · rename_i name type hfield
    cases hstep
    exact ⟨name, Header.reads_classField.read? hfield, rfl⟩
  · obtain ⟨⟨name, params⟩, hmember, heq⟩ := Option.map_eq_some_iff.mp hstep
    cases heq
    exact ⟨name, Header.reads_classMember.read? hmember, rfl⟩

/-- What the own name of a member begins with. Only a constant may be called by a numeral or have a capital in front. -/
def Kind.memberStart : Kind → Char → Bool
  | .attributeConstant => isNameChar
  | _ => isLowerStart

theorem Kind.memberStart_of_ne {k : Kind} (h : k ≠ .attributeConstant) : k.memberStart = isLowerStart := by
  unfold memberStart
  split
  · exact absurd rfl h
  · rfl

theorem Definition.name_of_mem_attributeMembers {target : String} {body : List Char} {d : Definition}
    (h : d ∈ attributeMembers target body) :
    d.kind.isQualifiedMember = true ∧
      ∃ own, Header.NameFrom d.kind.memberStart own ∧ d.name = target ++ "." ++ String.ofList own := by
  obtain ⟨above, line, below, used, -, hstep⟩ := mem_membersBy h
  simp only [attributeAt] at hstep
  split at hstep
  · rename_i name hbinding
    cases hstep
    exact ⟨rfl, name, Header.reads_binding.read? hbinding, rfl⟩
  · obtain ⟨name, hdefinition, heq⟩ := Option.map_eq_some_iff.mp hstep
    cases heq
    exact ⟨rfl, name, Header.reads_definition.read? hdefinition, rfl⟩

/-! ### Declarations -/

/-- An item that was read at a place stands there. Its name has no colon, and a dot only if it is a member of a type;
    then the dot divides the name of the type from its own. -/
structure Item.ReadAt (place : Place) (item : Item) : Prop where
  location : item.location = some place.location
  no_colon : ':' ∉ item.name.toList
  no_dot : item.kind.isQualifiedMember = false → '.' ∉ item.name.toList
  one_dot : item.kind.isQualifiedMember = true →
    ∃ type own, '.' ∉ type ∧ Header.NameFrom item.kind.memberStart own ∧ item.name.toList = type ++ '.' :: own

namespace Item.ReadAt

variable {place : Place} {item : Item}

theorem ofName {name : List Char} (hlocation : item.location = some place.location) (hname : Header.IsName name)
    (heq : item.name = String.ofList name) (hmember : item.kind.isQualifiedMember = false) : item.ReadAt place := by
  refine ⟨hlocation, ?_, fun _ => ?_, fun h => by simp [hmember] at h⟩ <;> rw [heq, String.toList_ofList]
  · exact hname.not_mem rfl
  · exact hname.not_mem rfl

/-- A member is named after its type, which has neither a colon nor a dot in its name. -/
theorem ofMember {type : String} {own : List Char} (hlocation : item.location = some place.location)
    (hcolon : ':' ∉ type.toList) (hdot : '.' ∉ type.toList) (hown : Header.NameFrom item.kind.memberStart own)
    (heq : item.name = type ++ "." ++ String.ofList own) (hmember : item.kind.isQualifiedMember = true) :
    item.ReadAt place := by
  refine ⟨hlocation, ?_, fun h => by simp [hmember] at h, fun _ => ⟨type.toList, own, hdot, hown, by simp [heq]⟩⟩
  have hown : ':' ∉ own := hown.name.not_mem rfl
  simp [heq, hcolon, hown]

end Item.ReadAt

section Read

variable {place : Place} {line : Line} {rest : List Line} {used : Nat}

theorem Statement.readAt {d : Statement} (h : Statement.read? place line rest = some (d, used)) :
    d.toItem.ReadAt place := by
  obtain ⟨name, hname, h⟩ := Option.bind_eq_some_iff.mp h
  obtain ⟨head, -, h⟩ := Option.bind_eq_some_iff.mp h
  obtain ⟨proof, -, h⟩ := Option.bind_eq_some_iff.mp h
  cases h
  refine .ofName rfl (Header.reads_statement.read? hname) rfl ?_
  simp only
  split <;> rfl

theorem TypeClass.readAt {d : TypeClass} (h : TypeClass.read? place line rest = some (d, used)) :
    d.toItem.ReadAt place ∧ ∀ e ∈ d.expand, e.item.ReadAt place := by
  obtain ⟨⟨param, name, parents⟩, hname, h⟩ := Option.bind_eq_some_iff.mp h
  obtain ⟨block, -, h⟩ := Option.bind_eq_some_iff.mp h
  cases h
  have hname : Header.IsName name := Header.reads_typeClass.read? hname
  refine ⟨.ofName rfl hname rfl rfl, fun e he => ?_⟩
  obtain ⟨entry, hentry, he⟩ := List.mem_filterMap.mp he
  obtain ⟨m, hm, rfl⟩ := List.mem_map.mp hentry
  obtain ⟨own, hown, heq⟩ := ClassMember.name_of_mem_classMembers hm
  have hnone {c : Char} (hc : isNameChar c = false) : c ∉ (String.ofList name).toList := by
    rw [String.toList_ofList]
    exact hname.not_mem hc
  cases he
  unfold expandMember
  split
  · exact .ofMember rfl (hnone rfl) (hnone rfl) hown (by rw [← heq]; rfl) rfl
  · exact .ofMember rfl (hnone rfl) (hnone rfl) hown (by rw [← heq]; rfl) rfl
  · exact .ofMember rfl (hnone rfl) (hnone rfl) hown (by rw [← heq]; rfl) rfl

theorem StructureType.readAt {d : StructureType} (h : StructureType.read? place line rest = some (d, used)) :
    d.toItem.ReadAt place := by
  obtain ⟨⟨name, params⟩, hname, h⟩ := Option.bind_eq_some_iff.mp h
  obtain ⟨block, -, h⟩ := Option.bind_eq_some_iff.mp h
  obtain ⟨constraint, -, h⟩ := Option.bind_eq_some_iff.mp h
  cases h
  exact .ofName rfl (Header.reads_typeDeclaration.read? hname) rfl rfl

theorem InductiveType.readAt {d : InductiveType} (h : InductiveType.read? place line rest = some (d, used)) :
    d.toItem.ReadAt place := by
  obtain ⟨⟨name, params⟩, hname, h⟩ := Option.bind_eq_some_iff.mp h
  obtain ⟨block, -, h⟩ := Option.bind_eq_some_iff.mp h
  cases h
  exact .ofName rfl (Header.reads_typeDeclaration.read? hname) rfl rfl

theorem Definition.readAt {d : Definition} (h : Definition.read? place line rest = some (d, used)) :
    d.toItem.ReadAt place := by
  obtain ⟨name, hname, h⟩ := Option.bind_eq_some_iff.mp h
  obtain ⟨block, -, h⟩ := Option.bind_eq_some_iff.mp h
  cases h
  exact .ofName rfl (Header.reads_definition.read? hname).name rfl rfl

theorem AttributesBlock.readAt {d : AttributesBlock} (h : AttributesBlock.read? place line rest = some (d, used)) :
    ∀ m ∈ d.located.members, m.toItem.ReadAt place := by
  obtain ⟨target, htarget, h⟩ := Option.bind_eq_some_iff.mp h
  obtain ⟨block, -, h⟩ := Option.bind_eq_some_iff.mp h
  cases h
  intro member hlocated
  obtain ⟨m, hm, rfl⟩ := List.mem_map.mp hlocated
  obtain ⟨hmember, own, hown, heq⟩ := Definition.name_of_mem_attributeMembers hm
  have hnone {c : Char} (hc : c = ':' ∨ c = '.') : c ∉ (String.ofList (Header.bareType none target)).toList := by
    rw [String.toList_ofList]
    intro hbare
    rcases Header.mem_bareType hbare with hheld | hmem | rfl
    · cases hheld
    · exact (Header.reads_attributes hc).read? htarget hmem
    · revert hc
      decide
  exact .ofMember rfl (hnone (Or.inl rfl)) (hnone (Or.inr rfl)) hown heq hmember

theorem InstanceBlock.readAt {d : InstanceBlock} (h : InstanceBlock.read? place line rest = some (d, used)) :
    d.toItem.ReadAt place := by
  obtain ⟨⟨type, «class»⟩, hheader, h⟩ := Option.bind_eq_some_iff.mp h
  obtain ⟨htype, hclass⟩ := Header.reads_instanceOf.read? hheader
  have hname : Header.IsName (type ++ "_".toList ++ «class» ++ "_instance".toList) :=
    ((htype.append (by decide)).append hclass).append (by decide)
  simp only at h
  split at h
  · obtain ⟨block, -, h⟩ := Option.bind_eq_some_iff.mp h
    cases h
    exact .ofName rfl hname (by simp [String.append_assoc]) rfl
  · cases h
    exact .ofName rfl hname (by simp [String.append_assoc]) rfl

end Read

/-! ### Files -/

/-- Whatever a step through a file declares was read at its place. -/
def DeclaresAt (place : Place) (found : List Entry × Nat) : Prop :=
  ∀ d, Entry.declared d ∈ found.1 → d.item.ReadAt place

section Files

variable {place : Place} {file : SourcePath}

theorem DeclaredBy.readAt {line : Line} {rest : List Line} {d : Declaration} {used : Nat}
    (h : DeclaredBy place line rest d used) : d.item.ReadAt place := by
  cases h with
  | instanceBlock h => exact InstanceBlock.readAt h
  | statement h => exact Statement.readAt h
  | typeClass h => exact (TypeClass.readAt h).1
  | classMember h hmember => exact (TypeClass.readAt h).2 _ hmember
  | structureType h => exact StructureType.readAt h
  | inductiveType h => exact InductiveType.readAt h
  | definition h => exact Definition.readAt h
  | attributeMember h hmember => exact AttributesBlock.readAt h _ hmember

theorem entriesAt_declaresAt (number : Nat) (line : Line) (rest : List Line) :
    DeclaresAt ⟨file, number⟩ (entriesAt file number line rest) :=
  fun d hd => (entriesAt_declares file number line rest d hd).readAt

@[simp] theorem Declaration.item_modify (f : Item → Item) (d : Declaration) : (d.modify f).item = f d.item := by
  cases d <;> rfl

theorem Declaration.modify_modify (f g : Item → Item) (d : Declaration) :
    (d.modify f).modify g = d.modify fun item => g (f item) := by
  cases d <;> rfl

/-- A declaration of a file was read at one of its first `height` lines, and its uuid is that of the file and its
    name. -/
structure Declaration.DeclaredIn (file : SourcePath) (height : Nat) (d : Declaration) : Prop where
  readAt : ∃ number < height, d.item.ReadAt ⟨file, number⟩
  uuid : d.item.uuid = some (uuidOf file d.name)

theorem SourceFile.declaredIn_of_mem {ls : List Line} {d : Declaration} (h : d ∈ (ofLines file ls).declarations) :
    d.DeclaredIn file ls.length := by
  obtain ⟨number, line, rest, e, used, hlength, -, hby, rfl⟩ := declaredBy_of_mem h
  have hat := hby.readAt
  constructor
  · refine ⟨number, hlength, ?_⟩
    rw [Declaration.enrich, Declaration.item_modify]
    exact ⟨hat.location, hat.no_colon, hat.no_dot, hat.one_dot⟩
  · rw [Declaration.name, Declaration.enrich, Declaration.item_modify]

end Files

end AcornCatalog
