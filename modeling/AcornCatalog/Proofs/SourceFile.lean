import AcornCatalog.Proofs.Declaration.Reading
import AcornCatalog.Proofs.Text.Line
import AcornCatalog.SourceFile

/-! Files put together from lines. If the brackets of the upper lines are in order, no declaration that starts there
reaches below them, so the file holds what the upper lines hold alone, and then what the lower lines hold alone, further
down. -/

namespace AcornCatalog

open Text Reader Check

/-! ### Entries that keep to their lines -/

section Confined

variable {γ : Type} {used : γ → Nat} {rest : List Line}

theorem Confined.ite {c : Prop} [Decidable c] {read read' : List Line → γ} (h : Confined used read rest)
    (h' : Confined used read' rest) : Confined used (fun ls => if c then read ls else read' ls) rest := by
  split
  · exact h
  · exact h'

theorem Confined.ofReading {α : Type} {declare : α → List Declaration} {read : List Line → Option (α × Nat)}
    (h : Confined usedBy read rest) : Confined (·.2) (fun ls => Entry.ofReading declare (read ls)) rest where
  append more := by rw [h.append]
  fits := by
    have := h.fits
    cases hread : read rest with
    | none => simp [Entry.ofReading]
    | some r =>
      rw [hread] at this
      exact this

theorem entriesAt_confined {file : SourcePath} {number : Nat} {line : Line} (h : BracesClose (line :: rest)) :
    Confined (·.2) (entriesAt file number line) rest :=
  .ite (.const rfl) <| .ite (.const rfl) <|
  .ite (.ofReading (InstanceBlock.read?_confined h)) <|
  .ite (.ofReading (Statement.read?_confined h)) <|
  .ite (.ofReading (TypeClass.read?_confined h)) <|
  .ite (.ofReading (StructureType.read?_confined h)) <|
  .ite (.ofReading (InductiveType.read?_confined h)) <|
  .ite (.ofReading (Definition.read?_confined h)) <|
  .ite (.ofReading (AttributesBlock.read?_confined h)) (.const rfl)

end Confined

/-! ### Entries further down -/

/-- The same entry `k` lines further down. -/
def Entry.down (k : Nat) : Entry → Entry
  | .declared d => .declared (d.down k)
  | .imported i => .imported i

section Down

variable {k : Nat}

theorem Entry.ofReading_down {α : Type} {declare : α → List Declaration} {move : α → α}
    {reading moved : Option (α × Nat)} (hmoved : moved = reading.map (Prod.map move id))
    (hdeclare : ∀ d, declare (move d) = (declare d).map (Declaration.down k)) :
    ofReading declare moved = Prod.map (List.map (Entry.down k)) id (ofReading declare reading) := by
  subst hmoved
  cases reading with
  | none => rfl
  | some r =>
    simp only [ofReading, Option.map_some, Prod.map, hdeclare, List.map_map]
    rfl

theorem TypeClass.expand_down (d : TypeClass) :
    TypeClass.expand { d with toItem := d.toItem.down k } = d.expand.map (Declaration.down k) := by
  simp only [TypeClass.expand, List.map_filterMap]
  congr 1
  funext entry
  cases entry with
  | loose record => rfl
  | member m =>
    simp only [TypeClass.expandMember]
    cases m.kind <;> rfl

theorem AttributesBlock.located_down (d : AttributesBlock) :
    (located { d with toItem := d.toItem.down k }).members.map Declaration.definition =
      (d.located.members.map Declaration.definition).map (Declaration.down k) := by
  simp only [located, List.map_map]
  rfl

theorem ite_eq_apply_ite {γ δ : Type} {c : Prop} [Decidable c] {f : γ → δ} {a b : γ} {a' b' : δ} (ha : a' = f a)
    (hb : b' = f b) : (if c then a' else b') = f (if c then a else b) := by
  split
  · exact ha
  · exact hb

theorem entriesAt_add (file : SourcePath) (number : Nat) (line : Line) (rest : List Line) :
    entriesAt file (number + k) line rest = Prod.map (List.map (Entry.down k)) id (entriesAt file number line rest) :=
  ite_eq_apply_ite rfl <| ite_eq_apply_ite (by cases Import.read? line <;> rfl) <|
  ite_eq_apply_ite (Entry.ofReading_down (InstanceBlock.read?_add ..) fun _ => rfl) <|
  ite_eq_apply_ite (Entry.ofReading_down (Statement.read?_add ..) fun _ => rfl) <|
  ite_eq_apply_ite (Entry.ofReading_down (TypeClass.read?_add ..) fun d => congrArg _ d.expand_down) <|
  ite_eq_apply_ite (Entry.ofReading_down (StructureType.read?_add ..) fun _ => rfl) <|
  ite_eq_apply_ite (Entry.ofReading_down (InductiveType.read?_add ..) fun _ => rfl) <|
  ite_eq_apply_ite (Entry.ofReading_down (Definition.read?_add ..) fun _ => rfl) <|
  ite_eq_apply_ite (Entry.ofReading_down (AttributesBlock.read?_add ..) AttributesBlock.located_down) rfl

theorem Declaration.enrich_down (file : SourcePath) (d : Declaration) :
    (d.down k).enrich file = (d.enrich file).down k := by
  cases d <;> rfl

end Down

namespace SourceFile

/-- The entries in lines put below others whose brackets are in order. -/
theorem entries_append {file : SourcePath} {upper : List Line} (h : checkBrackets upper = []) (lower : List Line) :
    entries file (upper ++ lower) = entries file upper ++ (entries file lower).map (Entry.down upper.length) := by
  have hclose := bracesClose_of_checkBrackets h
  rw [entries, sweep_append (fun _ _ _ hrest => entriesAt_confined (hclose.suffix hrest)) (Nat.zero_le _),
    sweep_map (entriesAt_add file)]
  rfl

/-- A file of lines whose upper part has its brackets in order holds the declarations and imports of the upper lines,
    and then those of the lower lines. The declarations of the lower lines stand further down by the length of the upper
    part and are otherwise the same. -/
theorem ofText_append (file : SourcePath) {upper lower : List Line} (hupper : ∀ l ∈ upper, Unbroken l)
    (hlower : ∀ l ∈ lower, Unbroken l) (hbrackets : checkBrackets upper = []) :
    ofText file (fileText (upper ++ lower)) =
      { declarations := (ofText file (fileText upper)).declarations ++
          (ofText file (fileText lower)).declarations.map (Declaration.down upper.length)
        imports := (ofText file (fileText upper)).imports ++ (ofText file (fileText lower)).imports } := by
  have hlines : ∀ l ∈ upper ++ lower, Unbroken l := fun l hl =>
    (List.mem_append.mp hl).elim (hupper l) (hlower l)
  simp only [ofText, lines_fileText hlines, lines_fileText hupper, lines_fileText hlower, ofLines,
    entries_append hbrackets, List.filterMap_append, List.filterMap_map, List.map_filterMap]
  congr 2
  · congr 1
    funext entry
    cases entry with
    | declared d => simp [Entry.down, Declaration.enrich_down]
    | imported i => rfl
  · congr 1
    funext entry
    cases entry <;> rfl

/-- The lower lines may leave a block open, and a proof that fills several of the upper lines does not reach them. -/
theorem ofText_append_open_below :
    let upper := ["theorem refl(b: Bool) \x7b", "    b = b", "\x7d by \x7b", "\x7d"].map String.toList
    let lower := ["define id(b: Bool) -> Bool \x7b", "    b", "\x7d", "axiom left \x7b"].map String.toList
    (∀ l ∈ upper, Unbroken l) ∧ (∀ l ∈ lower, Unbroken l) ∧ checkBrackets upper = [] ∧ checkBrackets lower ≠ [] ∧
      (ofText ⟨0, ["bool.ac"]⟩ (fileText (upper ++ lower))).declarations.map
          (fun d => (d.name, d.item.location.map (·.line))) = [("refl", some 1), ("id", some 5)] := by
  intro upper lower
  have hupper : ∀ l ∈ upper, Unbroken l := by decide
  have hlower : ∀ l ∈ lower, Unbroken l := by decide
  have hbrackets : checkBrackets upper = [] := by decide
  refine ⟨hupper, hlower, hbrackets, by decide, ?_⟩
  rw [ofText_append ⟨0, ["bool.ac"]⟩ hupper hlower hbrackets]
  rfl

end SourceFile

end AcornCatalog
