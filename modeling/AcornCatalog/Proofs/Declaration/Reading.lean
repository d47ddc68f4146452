import AcornCatalog.Declaration.Reading
import AcornCatalog.Proofs.Declaration.Block
import AcornCatalog.Proofs.Text.Occurrence

/-! Readings that keep to their own lines. Where braces close, a declaration is read from the lines it uses: lines put
below change nothing, and none is used that is not there. And further down in a file the same declaration is read, at a
place further down. -/

namespace AcornCatalog

open Text Reader

/-! ### Where blocks open -/

/-- The opening of a proof is `by`, blanks and a brace. -/
theorem proof_eq (cs : List Char) : Header.proof cs =
    (dropLead? "by".toList cs).bind fun behind => (dropLead? "\x7b".toList (behind.dropWhile isBlank)).map ((), ·) := by
  change ((dropLead? "by".toList cs).map ((), ·)).bind _ = _
  cases dropLead? "by".toList cs <;> rfl

theorem brace_mem_of_proof {cs : List Char} (h : (Header.proof cs).isSome) : '{' ∈ cs := by
  rw [proof_eq] at h
  obtain ⟨_, h⟩ := Option.isSome_iff_exists.mp h
  obtain ⟨behind, hby, h⟩ := Option.bind_eq_some_iff.mp h
  obtain ⟨rest, hbrace, _⟩ := Option.map_eq_some_iff.mp h
  have hmem : '{' ∈ behind.dropWhile isBlank := by
    rw [dropLead?_eq_some hbrace]
    exact List.mem_append_left _ (by decide)
  rw [dropLead?_eq_some hby]
  exact List.mem_append_right _ ((List.dropWhile_sublist _).subset hmem)

theorem braceColumn?_eq_some {l : Line} {column : Nat} (h : braceColumn? l = some column) : l[column]? = some '{' := by
  obtain ⟨hcolumn, hbrace, _⟩ := List.findIdx?_eq_some_iff_getElem.mp h
  rw [List.getElem?_eq_getElem hcolumn, beq_iff_eq.mp hbrace]

theorem getElem?_takeWhile_length {cs : List Char} (h : '{' ∈ cs) :
    cs[(cs.takeWhile (· != '{')).length]? = some '{' := by
  induction cs with
  | nil => cases h
  | cons c cs ih =>
    by_cases hc : c = '{'
    · simp [hc]
    · have hmem : '{' ∈ cs := (List.mem_cons.mp h).resolve_left (Ne.symm hc)
      simpa [List.takeWhile_cons, hc] using ih hmem

/-- A proof opens just behind a brace. -/
theorem proofColumn?_eq_some {remainder : Line} {column : Nat} (h : proofColumn? remainder = some column) :
    ∃ brace, column = brace + 1 ∧ remainder[brace]? = some '{' := by
  obtain ⟨o, ho, rfl⟩ := Option.map_eq_some_iff.mp h
  obtain ⟨i, _, _, hcolumn, hproof⟩ := mem_occurrencesFrom (List.mem_of_head? ho)
  rw [Nat.zero_add] at hcolumn
  have hbrace := getElem?_takeWhile_length (brace_mem_of_proof (Option.isSome_of_eq_some hproof))
  rw [List.getElem?_drop] at hbrace
  exact ⟨_, rfl, by rw [hcolumn]; exact hbrace⟩

/-! ### Blocks among more lines -/

section Blocks

variable {line : Line} {rest : List Line}

theorem firstBlock?_append (h : BracesClose (line :: rest)) (more : List Line) :
    firstBlock? line (rest ++ more) = firstBlock? line rest := by
  unfold firstBlock?
  cases hcolumn : braceColumn? line with
  | none => rfl
  | some column =>
    obtain ⟨b, hb⟩ := h line rest column (List.suffix_refl _) (braceColumn?_eq_some hcolumn)
    exact ((Block.capture_append hb).2 more).trans hb.symm

theorem firstBlock?_height {b : Block} (h : firstBlock? line rest = some b) : b.height ≤ rest.length := by
  obtain ⟨column, _, hb⟩ := Option.bind_eq_some_iff.mp h
  exact Nat.le_of_lt_succ (Block.capture_append hb).1

/-- A second block, opened by a brace in the line where a first one closes. -/
theorem exists_second_block (h : BracesClose (line :: rest)) {first : Block} (hfirst : first.height ≤ rest.length)
    {column : Nat} (hbrace : ((((line :: rest).drop first.height).headD []).drop first.column)[column]? = some '{') :
    ∃ b, first.height + b.height ≤ rest.length ∧
      ∀ more, Block.capture ((line :: (rest ++ more)).drop first.height) (first.column + column + 1) = some b := by
  obtain ⟨l, ls, hls⟩ : ∃ l ls, (line :: rest).drop first.height = l :: ls :=
    List.exists_cons_of_ne_nil (by simp [List.drop_eq_nil_iff]; omega)
  rw [hls, List.headD_cons, List.getElem?_drop] at hbrace
  obtain ⟨b, hb⟩ := h l ls _ (hls ▸ List.drop_suffix ..) hbrace
  obtain ⟨hheight, hmore⟩ := Block.capture_append hb
  refine ⟨b, ?_, fun more => ?_⟩
  · have := congrArg List.length hls
    simp only [List.length_drop, List.length_cons] at this hheight
    omega
  · rw [← List.cons_append, List.drop_append_of_le_length (by simp; omega), hls]
    exact hmore more

theorem headD_drop_append {height : Nat} (h : height ≤ rest.length) (more : List Line) :
    ((line :: (rest ++ more)).drop height).headD [] = ((line :: rest).drop height).headD [] := by
  have hlt : height < (line :: rest).length := Nat.lt_succ_of_le h
  rw [← List.cons_append, List.drop_append_of_le_length (Nat.le_of_lt hlt), List.drop_eq_getElem_cons hlt]
  rfl

/-- Whether a second block opens does not depend on lines put below, and if so it closes in a line that is there. -/
def SecondBlock (rest : List Line) (first : Block) (second? : List Line → Option (Option Block)) : Prop :=
  ∃ b? : Option Block, first.height + (b?.map (·.height)).getD 0 ≤ rest.length ∧
    ∀ more, second? (rest ++ more) = b?.map some

theorem proofBlock?_second (h : BracesClose (line :: rest)) {head : Block} (hhead : head.height ≤ rest.length) :
    SecondBlock rest head fun ls => proofBlock? (line :: ls) head := by
  simp only [SecondBlock, proofBlock?, headD_drop_append hhead]
  cases hproof : proofColumn? ((((line :: rest).drop head.height).headD []).drop head.column) with
  | none => exact ⟨none, hhead, fun _ => rfl⟩
  | some column =>
    obtain ⟨brace, rfl, hbrace⟩ := proofColumn?_eq_some hproof
    obtain ⟨b, hheight, hb⟩ := exists_second_block h hhead hbrace
    exact ⟨some b, hheight, fun more => congrArg some (hb more)⟩

theorem constraintBlock?_second (h : BracesClose (line :: rest)) {block : Block} (hblock : block.height ≤ rest.length) :
    SecondBlock rest block fun ls => constraintBlock? (line :: ls) block := by
  simp only [SecondBlock, constraintBlock?, headD_drop_append hblock]
  split
  · cases hcolumn : braceColumn? ((((line :: rest).drop block.height).headD []).drop block.column) with
    | none => exact ⟨none, hblock, fun _ => rfl⟩
    | some column =>
      obtain ⟨b, hheight, hb⟩ := exists_second_block h hblock (braceColumn?_eq_some hcolumn)
      exact ⟨some b, hheight, fun more => congrArg some (hb more)⟩
  · exact ⟨none, hblock, fun _ => rfl⟩

/-! ### Texts among more lines -/

theorem wholeLines_append {height : Nat} (h : height ≤ rest.length) (more : List Line) :
    wholeLines line (rest ++ more) height = wholeLines line rest height := by
  rw [wholeLines, List.take_append_of_le_length h]
  rfl

theorem excerpt_append {height : Nat} (h : height ≤ rest.length) (column : Nat) (more : List Line) :
    excerpt line (rest ++ more) height column = excerpt line rest height column := by
  cases height with
  | zero => rfl
  | succ height =>
    have hlt : height < rest.length := h
    simp only [excerpt, List.take_append_of_le_length (Nat.le_of_lt hlt), List.getD_eq_getElem?_getD,
      List.getElem?_append_left hlt]

end Blocks

/-! ### Readings among more lines -/

/-- How many lines below its first one a declaration uses. -/
def usedBy {α : Type} (reading : Option (α × Nat)) : Nat := (reading.map (·.2)).getD 0

section Confined

variable {α β : Type} {place : Place} {line : Line} {rest : List Line}

theorem Confined.const {γ : Type} {used : γ → Nat} {found : γ} (h : used found = 0) :
    Confined used (fun _ => found) rest where
  append _ := rfl
  fits := h ▸ Nat.zero_le _

theorem Confined.pure {make : List Line → α} {height : Nat} (hmake : ∀ more, make (rest ++ more) = make rest)
    (hheight : height ≤ rest.length) : Confined usedBy (fun ls => some (make ls, height)) rest where
  append more := by rw [hmake]
  fits := hheight

theorem Confined.bind {o : Option β} {read : β → List Line → Option (α × Nat)}
    (h : ∀ b, Confined usedBy (read b) rest) : Confined usedBy (fun ls => o.bind (read · ls)) rest := by
  cases o with
  | none => exact .const rfl
  | some b => exact h b

theorem Confined.firstBlock (h : BracesClose (line :: rest)) {read : Block → List Line → Option (α × Nat)}
    (hread : ∀ b, b.height ≤ rest.length → Confined usedBy (read b) rest) :
    Confined usedBy (fun ls => (firstBlock? line ls).bind (read · ls)) rest := by
  cases hblock : firstBlock? line rest with
  | none =>
    have hnone more : firstBlock? line (rest ++ more) = none := by rw [firstBlock?_append h, hblock]
    exact ⟨fun more => by simp [hnone, hblock], by simp [hblock, usedBy]⟩
  | some b =>
    have hsome more : firstBlock? line (rest ++ more) = some b := by rw [firstBlock?_append h, hblock]
    obtain ⟨happend, hfits⟩ := hread b (firstBlock?_height hblock)
    exact ⟨fun more => by simp [hsome, hblock, happend], by simpa [hblock] using hfits⟩

theorem Confined.secondBlock {first : Block} {second? : List Line → Option (Option Block)}
    (h : SecondBlock rest first second?) {read : Option Block → List Line → Option (α × Nat)}
    (hread : ∀ b?, first.height + (b?.map (·.height)).getD 0 ≤ rest.length → Confined usedBy (read b?) rest) :
    Confined usedBy (fun ls => ((second? ls).mapM id).bind (read · ls)) rest := by
  obtain ⟨b?, hheight, hsecond⟩ := h
  have hclosed more : (second? (rest ++ more)).mapM id = some b? := by
    rw [hsecond]
    cases b? <;> rfl
  have hrest := hclosed []
  rw [List.append_nil] at hrest
  obtain ⟨happend, hfits⟩ := hread b? hheight
  exact ⟨fun more => by simp [hclosed, hrest, happend], by simpa [hrest] using hfits⟩

theorem TypeClass.read?_confined (h : BracesClose (line :: rest)) : Confined usedBy (TypeClass.read? place line) rest :=
  .bind fun _ => .firstBlock h fun _ hheight => .pure (fun _ => by simp only [wholeLines_append hheight]) hheight

theorem InductiveType.read?_confined (h : BracesClose (line :: rest)) :
    Confined usedBy (InductiveType.read? place line) rest :=
  .bind fun _ => .firstBlock h fun _ hheight => .pure (fun _ => by simp only [wholeLines_append hheight]) hheight

theorem Definition.read?_confined (h : BracesClose (line :: rest)) :
    Confined usedBy (Definition.read? place line) rest :=
  .bind fun _ => .firstBlock h fun _ hheight => .pure (fun _ => by simp only [wholeLines_append hheight]) hheight

theorem AttributesBlock.read?_confined (h : BracesClose (line :: rest)) :
    Confined usedBy (AttributesBlock.read? place line) rest :=
  .bind fun _ => .firstBlock h fun _ hheight => .pure (fun _ => by simp only [wholeLines_append hheight]) hheight

theorem InstanceBlock.read?_confined (h : BracesClose (line :: rest)) :
    Confined usedBy (InstanceBlock.read? place line) rest := by
  refine .bind fun ⟨type, «class»⟩ => ?_
  by_cases hbrace : line.contains '{'
  · simp only [hbrace, if_true]
    exact .firstBlock h fun _ hheight => .pure (fun _ => by simp only [wholeLines_append hheight]) hheight
  · simp only [hbrace]
    exact .const rfl

theorem StructureType.read?_confined (h : BracesClose (line :: rest)) :
    Confined usedBy (StructureType.read? place line) rest := by
  refine .bind fun ⟨name, params⟩ => .firstBlock h fun block hblock => ?_
  exact .secondBlock (constraintBlock?_second h hblock) fun _ hheight =>
    .pure (fun _ => by simp only [wholeLines_append hheight]) hheight

theorem Statement.read?_confined (h : BracesClose (line :: rest)) :
    Confined usedBy (Statement.read? place line) rest := by
  refine .bind fun name => .firstBlock h fun head hhead => ?_
  have hsecond : SecondBlock rest head fun ls =>
      if "axiom".toList.isPrefixOf (trimStart line) then none else proofBlock? (line :: ls) head := by
    split
    · exact ⟨none, hhead, fun _ => rfl⟩
    · exact proofBlock?_second h hhead
  exact .secondBlock hsecond fun _ hheight =>
    .pure (fun _ => by simp only [excerpt_append hhead, excerpt_append hheight]) hheight

end Confined

/-! ### Readings further down -/

/-- The location `k` lines further down. -/
def Location.down (k : Nat) (l : Location) : Location := { l with line := l.line + k }

/-- The same item, declared `k` lines further down. -/
def Item.down (k : Nat) (i : Item) : Item := { i with location := i.location.map (·.down k) }

/-- The same declaration `k` lines further down. -/
def Declaration.down (k : Nat) (d : Declaration) : Declaration := d.modify (Item.down k)

section Down

variable (file : SourcePath) (number k : Nat) (line : Line) (rest : List Line)

theorem Place.location_add : Place.location ⟨file, number + k⟩ = (Place.location ⟨file, number⟩).down k := by
  have : ((number + k : Nat) : Int) + 1 = number + 1 + k := by omega
  simp only [Place.location, Location.down, this]

theorem bind_eq_map_bind {α β : Type} {o : Option α} {f g : α → Option β} {move : β → β}
    (h : ∀ a, f a = (g a).map move) : o.bind f = (o.bind g).map move := by
  cases o with
  | none => rfl
  | some a => exact h a

theorem Statement.read?_add : Statement.read? ⟨file, number + k⟩ line rest =
    (Statement.read? ⟨file, number⟩ line rest).map (Prod.map (fun d => { d with toItem := d.toItem.down k }) id) := by
  simp only [Statement.read?, Place.location_add]
  exact bind_eq_map_bind fun _ => bind_eq_map_bind fun _ => bind_eq_map_bind fun _ => rfl

theorem TypeClass.read?_add : TypeClass.read? ⟨file, number + k⟩ line rest =
    (TypeClass.read? ⟨file, number⟩ line rest).map (Prod.map (fun d => { d with toItem := d.toItem.down k }) id) := by
  simp only [TypeClass.read?, Place.location_add]
  exact bind_eq_map_bind fun ⟨_, _, _⟩ => bind_eq_map_bind fun _ => rfl

theorem StructureType.read?_add : StructureType.read? ⟨file, number + k⟩ line rest =
    (StructureType.read? ⟨file, number⟩ line rest).map
      (Prod.map (fun d => { d with toItem := d.toItem.down k }) id) := by
  simp only [StructureType.read?, Place.location_add]
  exact bind_eq_map_bind fun ⟨_, _⟩ => bind_eq_map_bind fun _ => bind_eq_map_bind fun _ => rfl

theorem InductiveType.read?_add : InductiveType.read? ⟨file, number + k⟩ line rest =
    (InductiveType.read? ⟨file, number⟩ line rest).map
      (Prod.map (fun d => { d with toItem := d.toItem.down k }) id) := by
  simp only [InductiveType.read?, Place.location_add]
  exact bind_eq_map_bind fun ⟨_, _⟩ => bind_eq_map_bind fun _ => rfl

theorem Definition.read?_add : Definition.read? ⟨file, number + k⟩ line rest =
    (Definition.read? ⟨file, number⟩ line rest).map (Prod.map (fun d => { d with toItem := d.toItem.down k }) id) := by
  simp only [Definition.read?, Place.location_add]
  exact bind_eq_map_bind fun _ => bind_eq_map_bind fun _ => rfl

theorem AttributesBlock.read?_add : AttributesBlock.read? ⟨file, number + k⟩ line rest =
    (AttributesBlock.read? ⟨file, number⟩ line rest).map
      (Prod.map (fun d => { d with toItem := d.toItem.down k }) id) := by
  simp only [AttributesBlock.read?, Place.location_add]
  exact bind_eq_map_bind fun _ => bind_eq_map_bind fun _ => rfl

theorem InstanceBlock.read?_add : InstanceBlock.read? ⟨file, number + k⟩ line rest =
    (InstanceBlock.read? ⟨file, number⟩ line rest).map
      (Prod.map (fun d => { d with toItem := d.toItem.down k }) id) := by
  simp only [InstanceBlock.read?, Place.location_add]
  refine bind_eq_map_bind fun ⟨_, _⟩ => ?_
  split
  · exact bind_eq_map_bind fun _ => rfl
  · rfl

end Down

end AcornCatalog
