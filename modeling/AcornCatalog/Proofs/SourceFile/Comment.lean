import AcornCatalog.Check.Comment
import AcornCatalog.Proofs.Declaration.Naming
import AcornCatalog.Proofs.Declaration.Remark
import AcornCatalog.SourceFile

/-! Comments in a source file. Declarations are found line by line and blocks by counting braces, so that comments are
not told from code unless a line begins with one. Here is where that does no harm: masking a comment at the end of a
line, or in a line that opens nothing, leaves the names, kinds and places of all declarations. -/

namespace AcornCatalog

open Text Reader Check

/-! ### Outlines -/

/-- The name, the kind and the location of a declaration. -/
abbrev Outline := String × Kind × Option Location

def Declaration.outline (d : Declaration) : Outline := (d.name, d.item.kind, d.item.location)

/-- The outlines of all that a file declares, from top to bottom. -/
def SourceFile.outline (f : SourceFile) : List Outline := f.declarations.map Declaration.outline

def Entry.outline? : Entry → Option Outline
  | .declared d => some d.outline
  | .imported _ => none

/-- The outlines of what was found at a line, and how many lines it uses. -/
def sketch (found : List Entry × Nat) : List Outline × Nat := (found.1.filterMap Entry.outline?, found.2)

theorem Declaration.outline_enrich (file : SourcePath) (d : Declaration) : (d.enrich file).outline = d.outline := by
  cases d <;> rfl

theorem SourceFile.outline_ofLines (file : SourcePath) (ls : List Line) :
    (ofLines file ls).outline = (entries file ls).filterMap Entry.outline? := by
  simp only [outline, ofLines, List.map_filterMap]
  refine congrArg (List.filterMap · (entries file ls)) (funext fun entry => ?_)
  cases entry with
  | declared d => exact congrArg some (d.outline_enrich file)
  | imported i => rfl

section Sketch

variable {α : Type} {declare : α → List Declaration}

theorem sketch_congr {d d' : α} {used used' : Nat}
    (hdeclare : (declare d).map Declaration.outline = (declare d').map Declaration.outline) (hused : used = used') :
    sketch (Entry.ofReading declare (some (d, used))) = sketch (Entry.ofReading declare (some (d', used'))) := by
  have houtline : Entry.outline? ∘ Entry.declared = some ∘ Declaration.outline := rfl
  simp only [sketch, Entry.ofReading, List.filterMap_map, houtline, List.filterMap_eq_map, hdeclare, hused]

theorem sketch_bind {γ κ : Type} {key : γ → κ} {o o' : Option γ} {read read' : γ → Option (α × Nat)}
    (h : o.map key = o'.map key)
    (hread : ∀ b b', key b = key b' →
      sketch (Entry.ofReading declare (read b)) = sketch (Entry.ofReading declare (read' b'))) :
    sketch (Entry.ofReading declare (o.bind read)) = sketch (Entry.ofReading declare (o'.bind read')) := by
  cases o with
  | none =>
    rw [Option.map_eq_none_iff.mp h.symm]
    rfl
  | some b =>
    obtain ⟨b', rfl, hkey⟩ := Option.map_eq_some_iff.mp h.symm
    exact hread b b' hkey.symm

theorem sketch_bind_same {γ : Type} {o : Option γ} {read read' : γ → Option (α × Nat)}
    (hread : ∀ b, sketch (Entry.ofReading declare (read b)) = sketch (Entry.ofReading declare (read' b))) :
    sketch (Entry.ofReading declare (o.bind read)) = sketch (Entry.ofReading declare (o.bind read')) := by
  cases o with
  | none => rfl
  | some b => exact hread b

theorem sketch_ite {c : Prop} [Decidable c] {found found' rest rest' : List Entry × Nat}
    (hfound : sketch found = sketch found') (hrest : sketch rest = sketch rest') :
    sketch (if c then found else rest) = sketch (if c then found' else rest') := by
  split
  · exact hfound
  · exact hrest

end Sketch

/-! ### Readings from lines with remarks -/

/-- The kind of the declaration that a class member stands for. -/
def MemberKind.declared : MemberKind → Kind
  | .method => .classMethod
  | .field => .classField
  | _ => .classLaw

theorem TypeClass.outline_expand {d : TypeClass} {members : List ClassMember} (h : d.members = members.map .member) :
    d.expand.map Declaration.outline =
      (members.map ClassMember.key).map fun key => (d.name ++ "." ++ key.1, key.2.declared, d.location) := by
  rw [TypeClass.expand, h, List.filterMap_map, List.map_filterMap, List.map_map, ← List.filterMap_eq_map]
  refine congrArg (List.filterMap · members) (funext fun m => congrArg some ?_)
  simp only [TypeClass.expandMember, Function.comp, ClassMember.key]
  cases m.kind <;> rfl

/-- Classes of one name, at one place, whose members have the same names and kinds. -/
theorem TypeClass.outline_expand_congr {d d' : TypeClass} {members members' : List ClassMember}
    (hname : d.name = d'.name) (hlocation : d.location = d'.location) (hd : d.members = members.map .member)
    (hd' : d'.members = members'.map .member)
    (hkey : members.map ClassMember.key = members'.map ClassMember.key) :
    d.expand.map Declaration.outline = d'.expand.map Declaration.outline := by
  rw [TypeClass.outline_expand hd, TypeClass.outline_expand hd', hkey, hname, hlocation]

theorem AttributesBlock.outline_located (d : AttributesBlock) :
    (d.located.members.map Declaration.definition).map Declaration.outline =
      (d.members.map (·.toItem.key)).map fun key => (key.1, key.2, d.location) := by
  simp only [AttributesBlock.located, List.map_map]
  rfl

theorem Bears.exists_tail {l m : Line} (h : Bears l m) (hbrace : '{' ∈ m) : ∃ tail, Spare tail ∧ l = m ++ tail := by
  cases h with
  | @behind code tail h => exact ⟨tail, h, rfl⟩
  | quiet => cases hbrace

section Readings

variable {place : Place} {l m : Line} {ls ms : List Line} (h : Bears l m) (hrest : List.Forall₂ Bears ls ms)
  (hbrace : '{' ∈ m)

include h hbrace in
theorem Bears.read?_closing {α : Type} {r : Reader α} (hr : Header.Closing r) : r.read? l = r.read? m := by
  obtain ⟨tail, hspare, rfl⟩ := h.exists_tail hbrace
  exact hr m tail ⟨hbrace, hspare.unopened⟩

include h hbrace in
theorem Bears.read?_steady {α : Type} {r : Reader α} (hr : Header.SteadyBeforeStop r) : r.read? l = r.read? m := by
  obtain ⟨tail, hspare, rfl⟩ := h.exists_tail hbrace
  exact hr.read?_append hspare.stops

include h hrest in
theorem firstBlock?_place : (firstBlock? l ls).map (fun b => (b.height, b.column)) =
    (firstBlock? m ms).map fun b => (b.height, b.column) := by
  have hshape := congrArg (Option.map fun s : Nat × Nat × List Gist => (s.1, s.2.1)) (firstBlock?_shape h hrest)
  rwa [Option.map_map, Option.map_map] at hshape

variable {α : Type} {declare : α → List Declaration}

include h hrest in
/-- A reading that tells of its first block only how many lines it uses. -/
theorem sketch_firstBlock {make make' : Block → α}
    (hdeclare : ∀ b b', (declare (make b)).map Declaration.outline = (declare (make' b')).map Declaration.outline) :
    sketch (Entry.ofReading declare ((firstBlock? l ls).bind fun b => some (make b, b.height))) =
      sketch (Entry.ofReading declare ((firstBlock? m ms).bind fun b => some (make' b, b.height))) := by
  refine sketch_bind (firstBlock?_place h hrest) fun b b' hb => ?_
  obtain ⟨hheight, -⟩ := Prod.ext_iff.mp hb
  exact sketch_congr (hdeclare b b') hheight

/-- A reading that tells of a second block only how many lines more it uses; it fails if that block does not close. -/
theorem sketch_secondBlock {first first' : Block} {second second' : Option (Option Block)}
    {make make' : Option Block → α} (hfirst : first.height = first'.height)
    (hsecond : second.map (Option.map Block.height) = second'.map (Option.map Block.height))
    (hdeclare : ∀ b b', (declare (make b)).map Declaration.outline = (declare (make' b')).map Declaration.outline) :
    sketch (Entry.ofReading declare ((second.mapM id).bind fun b =>
        some (make b, first.height + (b.map (·.height)).getD 0))) =
      sketch (Entry.ofReading declare ((second'.mapM id).bind fun b =>
        some (make' b, first'.height + (b.map (·.height)).getD 0))) := by
  have hclosed (x : Option (Option Block)) :
      (x.mapM id).map (Option.map Block.height) = (x.map (Option.map Block.height)).mapM id := by
    rcases x with _ | _ | b <;> rfl
  have hheight : (second.mapM id).map (Option.map Block.height) = (second'.mapM id).map (Option.map Block.height) := by
    rw [hclosed, hclosed, hsecond]
  refine sketch_bind hheight fun b b' hb => sketch_congr (hdeclare b b') ?_
  rw [hb, hfirst]

include h hrest hbrace in
theorem InductiveType.sketch_read? :
    sketch (Entry.ofReading (fun d => [.inductiveType d]) (InductiveType.read? place l ls)) =
      sketch (Entry.ofReading (fun d => [.inductiveType d]) (InductiveType.read? place m ms)) := by
  rw [InductiveType.read?, InductiveType.read?,
    h.read?_closing hbrace (Header.closing_typeDeclaration (by decide))]
  exact sketch_bind_same fun header => sketch_firstBlock h hrest fun _ _ => rfl

include h hrest hbrace in
theorem Definition.sketch_read? :
    sketch (Entry.ofReading (fun d => [.definition d]) (Definition.read? place l ls)) =
      sketch (Entry.ofReading (fun d => [.definition d]) (Definition.read? place m ms)) := by
  rw [Definition.read?, Definition.read?, h.read?_steady hbrace Header.steady_definition]
  exact sketch_bind_same fun name => sketch_firstBlock h hrest fun _ _ => rfl

include h hrest hbrace in
theorem TypeClass.sketch_read? (hfeed : ∀ line ∈ l :: ls, '\n' ∉ line) :
    sketch (Entry.ofReading (fun d => .typeClass d :: d.expand) (TypeClass.read? place l ls)) =
      sketch (Entry.ofReading (fun d => .typeClass d :: d.expand) (TypeClass.read? place m ms)) := by
  rw [TypeClass.read?, TypeClass.read?, h.read?_closing hbrace Header.closing_typeClass]
  refine sketch_bind_same fun header => sketch_bind (map_gist_cut_firstBlock? h hrest hfeed) fun b b' hb => ?_
  simp only [Prod.mk.injEq] at hb
  obtain ⟨hheight, -, hgist⟩ := hb
  refine sketch_congr (congrArg (List.cons _) ?_) hheight
  exact TypeClass.outline_expand_congr rfl rfl rfl rfl (classMembers_key hgist)

include h hrest hbrace in
theorem AttributesBlock.sketch_read? (hfeed : ∀ line ∈ l :: ls, '\n' ∉ line) :
    sketch (Entry.ofReading (fun d => d.located.members.map .definition) (AttributesBlock.read? place l ls)) =
      sketch (Entry.ofReading (fun d => d.located.members.map .definition) (AttributesBlock.read? place m ms)) := by
  rw [AttributesBlock.read?, AttributesBlock.read?, h.read?_closing hbrace Header.closing_attributes]
  refine sketch_bind_same fun target => sketch_bind (map_gist_cut_firstBlock? h hrest hfeed) fun b b' hb => ?_
  simp only [Prod.mk.injEq] at hb
  obtain ⟨hheight, -, hgist⟩ := hb
  refine sketch_congr ?_ hheight
  refine (AttributesBlock.outline_located _).trans (.trans ?_ (AttributesBlock.outline_located _).symm)
  exact congrArg (List.map _) (attributeMembers_key _ hgist)

include h hrest hbrace in
theorem InstanceBlock.sketch_read? :
    sketch (Entry.ofReading (fun d => [.instanceBlock d]) (InstanceBlock.read? place l ls)) =
      sketch (Entry.ofReading (fun d => [.instanceBlock d]) (InstanceBlock.read? place m ms)) := by
  have hm : m.contains '{' = true := List.contains_iff_mem.mpr hbrace
  have hl : l.contains '{' = true := by
    obtain ⟨tail, -, rfl⟩ := h.exists_tail hbrace
    exact List.contains_iff_mem.mpr (List.mem_append_left _ hbrace)
  rw [InstanceBlock.read?, InstanceBlock.read?, h.read?_steady hbrace Header.steady_instanceOf]
  refine sketch_bind_same fun header => ?_
  simp only [hl, hm, if_true]
  exact sketch_firstBlock h hrest fun _ _ => rfl

include h hrest hbrace in
theorem StructureType.sketch_read? :
    sketch (Entry.ofReading (fun d => [.structureType d]) (StructureType.read? place l ls)) =
      sketch (Entry.ofReading (fun d => [.structureType d]) (StructureType.read? place m ms)) := by
  rw [StructureType.read?, StructureType.read?, h.read?_closing hbrace (Header.closing_typeDeclaration (by decide))]
  refine sketch_bind_same fun header => sketch_bind (firstBlock?_place h hrest) fun b b' hb => ?_
  obtain ⟨hheight, hcolumn⟩ := Prod.ext_iff.mp hb
  exact sketch_secondBlock hheight (constraintBlock?_height (.cons h hrest) hheight hcolumn) fun _ _ => rfl

include h hrest hbrace in
theorem Statement.sketch_read? :
    sketch (Entry.ofReading (fun d => [.statement d]) (Statement.read? place l ls)) =
      sketch (Entry.ofReading (fun d => [.statement d]) (Statement.read? place m ms)) := by
  obtain ⟨tail, hspare, rfl⟩ := h.exists_tail hbrace
  have hstart : trimStart (m ++ tail) = trimStart m ++ tail := trimStart_append_of_mem (by decide) hbrace tail
  have hpostulated : "axiom".toList.isPrefixOf (trimStart m ++ tail) = "axiom".toList.isPrefixOf (trimStart m) :=
    isPrefixOf_append_of_mem (mem_trimStart (by decide) hbrace) (by decide) tail
  have hkind : ∀ postulated : Bool, isSolid (if postulated then "axiom" else "theorem").toList = true := by decide
  rw [Statement.read?, Statement.read?, hstart, hpostulated,
    (Header.steady_statement (hkind ("axiom".toList.isPrefixOf (trimStart m)))).read?_append hspare.stops]
  generalize "axiom".toList.isPrefixOf (trimStart m) = postulated
  refine sketch_bind_same fun name => sketch_bind (firstBlock?_place h hrest) fun b b' hb => ?_
  obtain ⟨hheight, hcolumn⟩ := Prod.ext_iff.mp hb
  have hproof : (if postulated then none else proofBlock? ((m ++ tail) :: ls) b).map (Option.map Block.height) =
      (if postulated then none else proofBlock? (m :: ms) b').map (Option.map Block.height) := by
    cases postulated with
    | true => rfl
    | false => exact proofBlock?_height (.cons h.pads (hrest.imp fun _ _ h => h.pads)) hheight hcolumn
  exact sketch_secondBlock hheight hproof fun _ _ => rfl

end Readings

/-! ### Entries at lines with remarks -/

theorem sketch_ite_nil {c : Prop} [Decidable c] {found rest : List Entry × Nat} (hfound : c → sketch found = ([], 0))
    (hrest : sketch rest = ([], 0)) : sketch (if c then found else rest) = ([], 0) := by
  split
  · exact hfound ‹c›
  · exact hrest

theorem sketch_imports (is : List Import) : sketch (is.map .imported, 0) = ([], 0) := by
  rw [sketch, List.filterMap_map]
  exact congrArg (·, 0) (List.filterMap_eq_nil_iff.mpr fun _ _ => rfl)

section NoBrace

variable {line : Line} {rest : List Line} (hbrace : '{' ∉ line)

include hbrace in
theorem firstBlock?_of_no_brace : firstBlock? line rest = none := by
  rw [firstBlock?, braceColumn?, List.idxOf?_eq_none_iff.mpr hbrace]
  rfl

include hbrace in
/-- Without a brace a line declares nothing, unless it is an instance. -/
theorem sketch_entriesAt_of_no_brace (file : SourcePath) (number : Nat) :
    sketch (entriesAt file number line rest) =
      if "instance ".toList.isPrefixOf (trimStart line) then
        sketch (Entry.ofReading (fun d => [.instanceBlock d]) (InstanceBlock.read? ⟨file, number⟩ line rest))
      else ([], 0) := by
  have hblock : firstBlock? line rest = none := firstBlock?_of_no_brace hbrace
  cases hinstance : "instance ".toList.isPrefixOf (trimStart line) with
  | true =>
    obtain ⟨behind, hstart⟩ := List.isPrefixOf_iff_prefix.mp hinstance
    rw [entriesAt, ← hstart]
    rfl
  | false =>
    have hnone {α γ : Type} {declare : α → List Declaration} (header : Option γ) (read : γ → Block → Option (α × Nat)) :
        sketch (Entry.ofReading declare (header.bind fun x => (firstBlock? line rest).bind (read x))) = ([], 0) := by
      cases header with
      | none => rfl
      | some x => exact hblock ▸ rfl
    exact sketch_ite_nil (fun _ => rfl) <| sketch_ite_nil (fun _ => sketch_imports _) <|
      sketch_ite_nil (fun h => absurd (hinstance.symm.trans h) Bool.false_ne_true) <|
      sketch_ite_nil (fun _ => hnone _ _) <| sketch_ite_nil (fun _ => hnone _ _) <|
      sketch_ite_nil (fun _ => hnone _ _) <| sketch_ite_nil (fun _ => hnone _ _) <|
      sketch_ite_nil (fun _ => hnone _ _) <| sketch_ite_nil (fun _ => hnone _ _) rfl

theorem InstanceBlock.sketch_read?_of_no_brace {place : Place} {l m : Line} {ls ms : List Line} (hl : '{' ∉ l)
    (hm : '{' ∉ m) (h : Header.instanceOf.read? l = Header.instanceOf.read? m) :
    sketch (Entry.ofReading (fun d => [.instanceBlock d]) (InstanceBlock.read? place l ls)) =
      sketch (Entry.ofReading (fun d => [.instanceBlock d]) (InstanceBlock.read? place m ms)) := by
  have hl : l.contains '{' = false := by simpa using hl
  have hm : m.contains '{' = false := by simpa using hm
  rw [InstanceBlock.read?, InstanceBlock.read?, h]
  refine sketch_bind_same fun header => ?_
  simp only [hl, hm, Bool.false_eq_true, if_false]
  exact sketch_congr rfl rfl

end NoBrace

section Entries

variable {file : SourcePath} {number : Nat} {l m : Line} {ls ms : List Line}

/-- What stands behind the code of a line is not seen where the line is told by its first word. -/
theorem sketch_entriesAt_of_brace (h : Bears l m) (hrest : List.Forall₂ Bears ls ms)
    (hfeed : ∀ line ∈ l :: ls, '\n' ∉ line) (hbrace : '{' ∈ m) :
    sketch (entriesAt file number l ls) = sketch (entriesAt file number m ms) := by
  obtain ⟨tail, hspare, rfl⟩ := h.exists_tail hbrace
  have hstart : trimStart (m ++ tail) = trimStart m ++ tail := trimStart_append_of_mem (by decide) hbrace tail
  have hmem : '{' ∈ trimStart m := mem_trimStart (by decide) hbrace
  have hbegins (word : String) (hword : '{' ∉ word.toList) :
      word.toList.isPrefixOf (trimStart m ++ tail) = word.toList.isPrefixOf (trimStart m) :=
    isPrefixOf_append_of_mem hmem hword tail
  have hidle : isIdleLine (trimStart m ++ tail) = isIdleLine (trimStart m) := by
    have hne : (trimStart m).isEmpty = false := by simpa using List.ne_nil_of_mem hmem
    have hne' : (trimStart m ++ tail).isEmpty = false := by simpa using fun h => absurd h (List.ne_nil_of_mem hmem)
    rw [isIdleLine, isIdleLine, hbegins "//" (by decide), hne, hne']
  rw [entriesAt, entriesAt, hstart, hidle]
  simp only [hbegins "from " (by decide), hbegins "import " (by decide), hbegins "instance " (by decide),
    hbegins "theorem " (by decide), hbegins "axiom " (by decide), hbegins "typeclass " (by decide),
    hbegins "structure " (by decide), hbegins "inductive " (by decide), hbegins "define " (by decide),
    hbegins "attributes " (by decide)]
  exact sketch_ite rfl <| sketch_ite ((sketch_imports _).trans (sketch_imports _).symm) <|
    sketch_ite (InstanceBlock.sketch_read? h hrest hbrace) <|
    sketch_ite (Statement.sketch_read? h hrest hbrace) <|
    sketch_ite (TypeClass.sketch_read? h hrest hbrace hfeed) <|
    sketch_ite (StructureType.sketch_read? h hrest hbrace) <|
    sketch_ite (InductiveType.sketch_read? h hrest hbrace) <|
    sketch_ite (Definition.sketch_read? h hrest hbrace) <|
    sketch_ite (AttributesBlock.sketch_read? h hrest hbrace hfeed) rfl

theorem sketch_entriesAt (h : Bears l m) (hrest : List.Forall₂ Bears ls ms) (hfeed : ∀ line ∈ l :: ls, '\n' ∉ line) :
    sketch (entriesAt file number l ls) = sketch (entriesAt file number m ms) := by
  by_cases hbrace : '{' ∈ m
  · exact sketch_entriesAt_of_brace h hrest hfeed hbrace
  · have hl : '{' ∉ l := by
      obtain ⟨tail, hopen, -, rfl⟩ := h.pads
      exact fun hmem => (List.mem_append.mp hmem).elim hbrace hopen
    have hread : Header.instanceOf.read? l = Header.instanceOf.read? m := by
      cases h with
      | behind h => exact Header.steady_instanceOf.read?_append h.stops
      | quiet h => exact h.noInstance
    have hinstance : sketch (Entry.ofReading (fun d => [.instanceBlock d]) (InstanceBlock.read? ⟨file, number⟩ l ls)) =
        sketch (Entry.ofReading (fun d => [.instanceBlock d]) (InstanceBlock.read? ⟨file, number⟩ m ms)) :=
      InstanceBlock.sketch_read?_of_no_brace hl hbrace hread
    rw [sketch_entriesAt_of_no_brace hl, sketch_entriesAt_of_no_brace hbrace, hinstance]
    cases hsome : Header.instanceOf.read? m with
    | none =>
      have hnone : InstanceBlock.read? ⟨file, number⟩ m ms = none := by
        rw [InstanceBlock.read?, hsome]
        rfl
      rw [hnone]
      exact (ite_self _).trans (ite_self _).symm
    | some read =>
      -- the colon of the instance stands behind its first word
      have hcolon : ':' ∈ m := by
        refine Decidable.byContradiction fun hmem => ?_
        rw [Reader.read?, Header.needs_colon_instanceOf m hmem] at hsome
        cases hsome
      obtain ⟨tail, -, -, rfl⟩ := h.pads
      rw [trimStart_append_of_mem (by decide) hcolon,
        isPrefixOf_append_of_mem (mem_trimStart (by decide) hcolon) (by decide)]

end Entries

/-! ### Comments -/

/-- A comment behind the code of a line that changes nothing. It has no brace and speaks neither of a definition nor of
    a constraint, and the code is not a field of a class, neither in its line nor behind its first brace. -/
structure Harmless (code note : Line) : Prop where
  unopened : '{' ∉ note
  unclosed : '}' ∉ note
  undefined : occursIn "define".toList note = false
  unconstrained : occursIn "constraint".toList note = false
  noField : Header.classField.read? (trim code) = none
  noFieldBehindBrace : Header.classField.read? (trim (behindBrace code)) = none

instance (code note : Line) : Decidable (Harmless code note) :=
  decidable_of_iff ('{' ∉ note ∧ '}' ∉ note ∧ occursIn "define".toList note = false ∧
      occursIn "constraint".toList note = false ∧ Header.classField.read? (trim code) = none ∧
      Header.classField.read? (trim (behindBrace code)) = none)
    ⟨fun ⟨h1, h2, h3, h4, h5, h6⟩ => ⟨h1, h2, h3, h4, h5, h6⟩, fun ⟨h1, h2, h3, h4, h5, h6⟩ => ⟨h1, h2, h3, h4, h5, h6⟩⟩

/-- A line and what is left of it when comments are masked. Either it has none, or one at its end that changes nothing,
    or the line is nothing to those around it with and without its comments. -/
inductive Noted : Line → Line → Prop where
  | same (line : Line) : Noted line line
  | behind {code note : Line} (h : Harmless code note) (n : Nat) :
      Noted (code ++ '/' :: note) (code ++ List.replicate n ' ')
  | quiet {line masked : Line} (h : Quiet line) (hmasked : Quiet masked) : Noted line masked

theorem spare_of_allBlank {tail : Line} (h : allBlank tail = true) : Spare tail := by
  have hword {w : List Char} (hw : w ≠ []) (hsolid : isSolid w = true) : occursIn w tail = false := by
    have := occursIn_blanks_append hw hsolid h []
    rw [List.append_nil] at this
    rw [this]
    simpa [occursIn] using hw
  have hchar {c : Char} (hc : isBlank c = false) : c ∉ tail := fun hmem => by
    simp [List.all_eq_true.mp h c hmem] at hc
  exact ⟨Header.stops_of_allBlank h, hchar (by decide), hchar (by decide), hword (by decide) (by decide),
    hword (by decide) (by decide)⟩

theorem bears_blanks {tail : Line} (h : allBlank tail = true) (code : Line) : Bears (code ++ tail) code :=
  .behind (spare_of_allBlank h) (by rw [trim_append_of_allBlank h]) (by rw [trim_append_of_allBlank h])

theorem Harmless.bears {code note : Line} (h : Harmless code note) : Bears (code ++ '/' :: note) code := by
  have hspare : Spare ('/' :: note) :=
    ⟨Header.stops_slash note, by simpa using h.unopened, by simpa using h.unclosed,
      by rw [occursIn_cons_of_not_mem (by decide) (by decide), h.undefined],
      by rw [occursIn_cons_of_not_mem (by decide) (by decide), h.unconstrained]⟩
  exact .behind hspare (by rw [Header.read?_classField_trim_slash, h.noField])
    (by rw [Header.read?_classField_trim_slash, h.noFieldBehindBrace])

theorem Noted.exists_bears {line masked : Line} (h : Noted line masked) :
    ∃ code, Bears line code ∧ Bears masked code := by
  cases h with
  | same =>
    have hsame : Bears (line ++ []) line := bears_blanks (by rfl) line
    rw [List.append_nil] at hsame
    exact ⟨line, hsame, hsame⟩
  | @behind code note h n => exact ⟨code, h.bears, bears_blanks (by simp [allBlank, isBlank]) code⟩
  | quiet h hmasked => exact ⟨[], .quiet h, .quiet hmasked⟩

theorem exists_codes {ls ms : List Line} (h : List.Forall₂ Noted ls ms) :
    ∃ codes, List.Forall₂ Bears ls codes ∧ List.Forall₂ Bears ms codes := by
  induction h with
  | nil => exact ⟨[], .nil, .nil⟩
  | cons hline _ ih =>
    obtain ⟨code, hl, hm⟩ := hline.exists_bears
    obtain ⟨codes, hls, hms⟩ := ih
    exact ⟨code :: codes, .cons hl hls, .cons hm hms⟩

namespace SourceFile

theorem outline_of_bears (file : SourcePath) {ls codes : List Line} (h : List.Forall₂ Bears ls codes)
    (hfeed : ∀ l ∈ ls, '\n' ∉ l) : (ofLines file ls).outline = (ofLines file codes).outline := by
  rw [outline_ofLines, outline_ofLines]
  have hlines := (List.forall₂_and_left ls codes).mpr ⟨hfeed, h⟩
  refine filterMap_sweep (fun number l m ls ms hline hrest => ?_) hlines 0 0
  obtain ⟨hfeeds, hbears⟩ := (List.forall₂_and_left ls ms).mp hrest
  exact Prod.mk.inj (sketch_entriesAt hline.2 hbears (List.forall_mem_cons.mpr ⟨hline.1, hfeeds⟩))

/-- A declaration stands at a line of the file that is not passed over. -/
theorem exists_line_of_mem {file : SourcePath} {ls : List Line} {d : Declaration}
    (h : d ∈ (ofLines file ls).declarations) : ∃ number line,
      d.item.location = some (Place.location ⟨file, number⟩) ∧ ls[number]? = some line ∧
        isIdleLine (trimStart line) = false := by
  obtain ⟨entry, hentry, heq⟩ := List.mem_filterMap.mp h
  cases entry with
  | imported i => cases heq
  | declared e =>
    cases heq
    obtain ⟨number, line, -, hline, hmem⟩ := mem_sweep hentry
    rw [Nat.zero_add] at hmem
    refine ⟨number, line, ?_, hline, ?_⟩
    · rw [Declaration.enrich, Declaration.item_modify]
      exact (entriesAt_declaresAt number line _ e hmem).location
    · cases hidle : isIdleLine (trimStart line) with
      | false => rfl
      | true =>
        rw [entriesAt, hidle] at hmem
        cases hmem

/-- Comments that change nothing in their lines, or stand in lines that are nothing to those around them, can be masked:
    the file declares the same names of the same kinds at the same places. Whatever else is in a file, nothing is
    declared at a line that is a comment from its first word on. -/
theorem outline_ofText_maskComments (file : SourcePath) (text : List Char) :
    (List.Forall₂ Noted (lines (unifyBreaks text)) (lines (unifyBreaks (maskComments text))) →
      (ofText file (maskComments text)).outline = (ofText file text).outline) ∧
    ∀ d ∈ (ofText file text).declarations, ∃ number line, d.item.location = some (Place.location ⟨file, number⟩) ∧
      (lines (unifyBreaks text))[number]? = some line ∧ "//".toList.isPrefixOf (trimStart line) = false := by
  constructor
  · intro h
    obtain ⟨codes, htext, hmasked⟩ := exists_codes h
    have hfeed (cs : List Char) : ∀ l ∈ lines cs, '\n' ∉ l := fun l hl hmem =>
      absurd (unbroken_of_mem_lines hl '\n' hmem) (by decide)
    rw [ofText, ofText, outline_of_bears file hmasked (hfeed _), outline_of_bears file htext (hfeed _)]
  · intro d hd
    obtain ⟨number, line, hlocation, hline, hidle⟩ := exists_line_of_mem hd
    exact ⟨number, line, hlocation, hline, (Bool.or_eq_false_iff.mp hidle).2⟩

/-- A line of its own, comments at the end of two lines and one over two lines: the class and its law stay. -/
theorem outline_ofText_maskComments_magma :
    let text := fileText (["// A theorem on magmas", "typeclass A: Magma \x7b // one law", "    /* let us leave",
      "    a field */", "    idem(a: A) \x7b a * a = a \x7d // for all", "\x7d"].map String.toList)
    List.Forall₂ Noted (lines (unifyBreaks text)) (lines (unifyBreaks (maskComments text))) ∧
      (ofText ⟨0, ["magma.ac"]⟩ (maskComments text)).outline =
        [("Magma", .typeClass, some ⟨⟨0, ["magma.ac"]⟩, 2⟩),
          ("Magma.idem", .classLaw, some ⟨⟨0, ["magma.ac"]⟩, 2⟩)] := by
  intro text
  have hnoted : List.Forall₂ Noted (lines (unifyBreaks text)) (lines (unifyBreaks (maskComments text))) :=
    .cons (.quiet (by decide) (by decide)) <|
    .cons (@Noted.behind "typeclass A: Magma \x7b ".toList "/ one law".toList (by decide) 10) <|
    .cons (.quiet (by decide) (by decide)) <| .cons (.quiet (by decide) (by decide)) <|
    .cons (@Noted.behind "    idem(a: A) \x7b a * a = a \x7d ".toList "/ for all".toList (by decide) 10) <|
    .cons (.same _) .nil
  refine ⟨hnoted, Eq.trans ((outline_ofText_maskComments ⟨0, ["magma.ac"]⟩ text).1 hnoted) ?_⟩
  rfl

/-- A declaration within a comment over several lines is read all the same. -/
example :
    let text := fileText (["/*", "theorem ghost \x7b true \x7d", "*/"].map String.toList)
    (ofText ⟨0, ["ghost.ac"]⟩ text).outline = [("ghost", .proposition, some ⟨⟨0, ["ghost.ac"]⟩, 2⟩)] ∧
      (ofText ⟨0, ["ghost.ac"]⟩ (maskComments text)).outline = [] :=
  ⟨rfl, rfl⟩

end SourceFile

end AcornCatalog
