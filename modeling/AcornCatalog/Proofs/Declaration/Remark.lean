import AcornCatalog.Proofs.Declaration.Member
import AcornCatalog.Proofs.Declaration.Reading

/-! Lines with remarks. What stands behind the code of a line, and a line that opens nothing at all, can be left out:
the blocks that lines open close at the same places and have lines that open the same members. -/

namespace AcornCatalog

open Text Reader

/-- What may stand behind the code of a line: blanks, or a comment that has no brace and that speaks neither of a
    definition nor of a constraint. -/
structure Spare (tail : Line) : Prop where
  stops : Header.Stops tail
  unopened : '{' ∉ tail
  unclosed : '}' ∉ tail
  undefined : occursIn "define".toList tail = false
  unconstrained : occursIn "constraint".toList tail = false

/-- A line that is nothing to the lines around it: it has no brace, speaks of no definition, and is neither an instance
    nor, in a block, a field or a binding. -/
structure Quiet (line : Line) : Prop where
  unopened : '{' ∉ line
  unclosed : '}' ∉ line
  undefined : occursIn "define".toList line = false
  noInstance : Header.instanceOf.read? line = none
  noField : Header.classField.read? (trim line) = none
  noBinding : Header.binding.read? (trim line) = none

instance (line : Line) : Decidable (Quiet line) :=
  decidable_of_iff ('{' ∉ line ∧ '}' ∉ line ∧ occursIn "define".toList line = false ∧
      Header.instanceOf.read? line = none ∧ Header.classField.read? (trim line) = none ∧
      Header.binding.read? (trim line) = none)
    ⟨fun ⟨h1, h2, h3, h4, h5, h6⟩ => ⟨h1, h2, h3, h4, h5, h6⟩, fun ⟨h1, h2, h3, h4, h5, h6⟩ => ⟨h1, h2, h3, h4, h5, h6⟩⟩

/-- What stands behind the first brace of a line. -/
def behindBrace (line : Line) : Line := ((braceColumn? line).map fun column => line.drop (column + 1)).getD []

/-- A line bears what can be left out, and its code is what remains. As a field of a class fills its line, the line and
    the first line of the block it opens have to be fields, or not, with the remark as without. -/
inductive Bears : Line → Line → Prop where
  | behind {code tail : Line} (h : Spare tail)
      (hline : Header.classField.read? (trim (code ++ tail)) = Header.classField.read? (trim code))
      (hblock : Header.classField.read? (trim (behindBrace code ++ tail)) =
        Header.classField.read? (trim (behindBrace code))) : Bears (code ++ tail) code
  | quiet {line : Line} (h : Quiet line) : Bears line []

theorem read?_definition_of_undefined {cs : List Char} (h : occursIn "define".toList cs = false) :
    Header.definition.read? cs = none := by
  have hlead : dropLead? "define".toList cs = none := by
    cases hlead : dropLead? "define".toList cs with
    | none => rfl
    | some rest =>
      have hwithin : "define".toList <:+: cs := ⟨[], rest, by rw [dropLead?_eq_some hlead]; rfl⟩
      rw [occursIn_iff_isInfix.mpr hwithin] at h
      cases h
  have hkeyword : Header.keyword "define" cs = none := bind_eq_none (by rw [literal, hlead]; rfl)
  rw [Reader.read?, Header.definition, bind_eq_none hkeyword]
  rfl

theorem Quiet.gist_eq {line : Line} (h : Quiet line) : gist line = gist [] := by
  have hbrace : '{' ∉ trim line := fun hmem => h.unopened ((trim_isInfix line).subset hmem)
  have hmember : Header.classMember.read? (trim line) = none := by
    rw [Reader.read?, Header.needs_brace_classMember _ hbrace]
    rfl
  have hdefine : occursIn "define".toList (trim line) = false := by
    rw [Bool.eq_false_iff, Ne, occursIn_iff_isInfix]
    intro hwithin
    have := occursIn_iff_isInfix.mpr (hwithin.trans (trim_isInfix line))
    rw [h.undefined] at this
    cases this
  simp only [gist, h.noField, hmember, h.noBinding, read?_definition_of_undefined hdefine, h.undefined,
    List.count_eq_zero.mpr h.unopened, List.count_eq_zero.mpr h.unclosed]
  rfl

namespace Bears

variable {l m : Line}

theorem pads (h : Bears l m) : Pads l m := by
  cases h with
  | @behind code tail h => exact ⟨tail, h.unopened, h.unclosed, rfl⟩
  | quiet h => exact ⟨l, h.unopened, h.unclosed, rfl⟩

theorem alike (h : Bears l m) : Alike l m := by
  cases h with
  | behind h hline => exact gist_append h.stops h.unopened h.unclosed h.undefined hline
  | quiet h => exact h.gist_eq

end Bears

/-! ### The first block -/

theorem Pads.braceColumn? {l m : Line} (h : Pads l m) : braceColumn? l = braceColumn? m := by
  obtain ⟨tail, hopen, -, rfl⟩ := h
  have htail : tail.findIdx? (· == '{') = none := List.idxOf?_eq_none_iff.mpr hopen
  change (m ++ tail).findIdx? (· == '{') = m.findIdx? (· == '{')
  rw [List.findIdx?_append, htail, Option.map_none, Option.or_none]

section Blocks

variable {l m : Line} {ls ms : List Line}

theorem forall₂_pads_alike (h : List.Forall₂ Bears ls ms) :
    List.Forall₂ (fun l m => Pads l m ∧ gist l = gist m) ls ms :=
  h.imp fun _ _ h => ⟨h.pads, h.alike⟩

theorem not_mem_feed_of_bears (h : List.Forall₂ Bears ls ms) (hfeed : ∀ l ∈ ls, '\n' ∉ l) : ∀ m ∈ ms, '\n' ∉ m := by
  induction h with
  | nil => exact fun m hm => absurd hm List.not_mem_nil
  | cons hline _ ih =>
    obtain ⟨hfirst, hrest⟩ := List.forall_mem_cons.mp hfeed
    obtain ⟨tail, -, -, rfl⟩ := hline.pads
    exact List.forall_mem_cons.mpr ⟨fun hmem => hfirst (List.mem_append_left _ hmem), ih hrest⟩

theorem firstBlock?_shape (h : Bears l m) (hrest : List.Forall₂ Bears ls ms) :
    (firstBlock? l ls).map (Block.shape gist) = (firstBlock? m ms).map (Block.shape gist) := by
  rw [firstBlock?, firstBlock?, h.pads.braceColumn?]
  cases hcolumn : braceColumn? m with
  | none => rfl
  | some column =>
    refine Block.capture_shape ⟨h.pads.drop _, ?_⟩ (forall₂_pads_alike hrest)
    cases h with
    | quiet h => cases hcolumn
    | @behind code tail h hline hblock =>
      have hlt : column + 1 ≤ m.length := (List.getElem?_eq_some_iff.mp (braceColumn?_eq_some hcolumn)).1
      rw [List.drop_append_of_le_length hlt]
      rw [behindBrace, hcolumn] at hblock
      exact gist_append h.stops h.unopened h.unclosed h.undefined hblock

/-- The first blocks have the same members, whatever their lines bear. -/
theorem map_gist_cut_firstBlock? (h : Bears l m) (hrest : List.Forall₂ Bears ls ms)
    (hfeed : ∀ line ∈ l :: ls, '\n' ∉ line) :
    (firstBlock? l ls).map (fun b => (b.height, b.column, (cut '\n' b.content).map gist)) =
      (firstBlock? m ms).map fun b => (b.height, b.column, (cut '\n' b.content).map gist) := by
  -- the lines of a block have no line feed, as they stand in lines that have none
  have hshape {l : Line} {ls : List Line} (hfeed : ∀ line ∈ l :: ls, '\n' ∉ line) :
      (firstBlock? l ls).map (fun b => (b.height, b.column, (cut '\n' b.content).map gist)) =
        (firstBlock? l ls).map (Block.shape gist) := by
    refine Option.map_congr fun b hb => ?_
    obtain ⟨column, -, hcapture⟩ := Option.bind_eq_some_iff.mp hb
    obtain ⟨hne, hinner⟩ := Block.inner_of_capture hcapture
    rw [Block.shape, map_gist_cut_content hne]
    intro inner hmem hn
    obtain ⟨line, hline, hwithin⟩ := hinner inner hmem
    exact hfeed line hline (hwithin.subset hn)
  rw [hshape hfeed, hshape (not_mem_feed_of_bears (.cons h hrest) hfeed), firstBlock?_shape h hrest]

/-! ### A second block -/

theorem proofColumn?_append {tail : Line} (h : '{' ∉ tail) (code : Line) :
    proofColumn? (code ++ tail) = proofColumn? code := by
  have hneeds : Needs '{' Header.proof := fun cs hcs => by
    cases hproof : Header.proof cs with
    | none => rfl
    | some read => exact absurd (brace_mem_of_proof (by rw [hproof]; rfl)) hcs
  have hfirst := first?_append hneeds h (fun code => Header.closing_proof.read?_append hneeds h code) code
  rw [proofColumn?, proofColumn?, hfirst]
  refine Option.map_congr fun o ho => ?_
  -- the brace that opens the proof stands in the code
  obtain ⟨i, _, _, hcolumn, hproof⟩ := mem_occurrencesFrom (List.mem_of_head? ho)
  rw [Nat.zero_add] at hcolumn
  have hbrace : '{' ∈ code.drop o.column := hcolumn ▸ brace_mem_of_proof (Option.isSome_of_eq_some hproof)
  have hahead : Header.BraceAhead (code.drop o.column) (tail.drop (o.column - code.length)) :=
    ⟨hbrace, fun hmem => h (List.mem_of_mem_drop hmem)⟩
  have hpasses : Passes Header.BraceAhead (· != '{') := Header.passes_of_not_brace (by decide)
  rw [List.drop_append, (hpasses.dropWhile hahead).1]

theorem capture_height (h : Pads l m) (hrest : List.Forall₂ Pads ls ms) (column : Nat) :
    (Block.capture (l :: ls) column).map Block.height = (Block.capture (m :: ms) column).map Block.height := by
  have hshape : (Block.capture (l :: ls) column).map (Block.shape fun _ => ()) =
      (Block.capture (m :: ms) column).map (Block.shape fun _ => ()) :=
    Block.capture_shape ⟨h.drop column, rfl⟩ (hrest.imp fun _ _ h => ⟨h, rfl⟩)
  have hheight := congrArg (Option.map Prod.fst) hshape
  rwa [Option.map_map, Option.map_map] at hheight

variable {head head' : Block}

theorem proofBlock?_height (h : List.Forall₂ Pads ls ms) (hheight : head.height = head'.height)
    (hcolumn : head.column = head'.column) :
    (proofBlock? ls head).map (Option.map Block.height) = (proofBlock? ms head').map (Option.map Block.height) := by
  rw [proofBlock?, proofBlock?, hheight, hcolumn]
  have hbelow := List.forall₂_drop head'.height h
  generalize ls.drop head'.height = below at hbelow
  generalize ms.drop head'.height = below' at hbelow
  cases hbelow with
  | nil => rfl
  | @cons l m ls ms hline hrest =>
    have hproof : proofColumn? (l.drop head'.column) = proofColumn? (m.drop head'.column) := by
      obtain ⟨tail, hopen, -, heq⟩ := hline.drop head'.column
      rw [heq, proofColumn?_append hopen]
    simp only [List.headD_cons, hproof, Option.map_map]
    refine Option.map_congr fun column _ => ?_
    exact capture_height hline hrest _

theorem constraintBlock?_height (h : List.Forall₂ Bears ls ms) (hheight : head.height = head'.height)
    (hcolumn : head.column = head'.column) :
    (constraintBlock? ls head).map (Option.map Block.height) =
      (constraintBlock? ms head').map (Option.map Block.height) := by
  rw [constraintBlock?, constraintBlock?, hheight, hcolumn]
  have hbelow := List.forall₂_drop head'.height h
  generalize ls.drop head'.height = below at hbelow
  generalize ms.drop head'.height = below' at hbelow
  cases hbelow with
  | nil => rfl
  | @cons l m ls ms hline hrest =>
    have hcolumn : braceColumn? (l.drop head'.column) = braceColumn? (m.drop head'.column) :=
      (hline.pads.drop head'.column).braceColumn?
    rw [List.headD_cons, List.headD_cons, hcolumn]
    cases hbrace : braceColumn? (m.drop head'.column) with
    | none => rw [Option.map_none, Option.map_none, ite_self, ite_self]
    | some column =>
      have hconstraint : occursIn "constraint".toList (l.drop head'.column) =
          occursIn "constraint".toList (m.drop head'.column) := by
        cases hline with
        | quiet _ => simp [braceColumn?] at hbrace
        | @behind code tail hspare =>
          have hlt := (List.getElem?_eq_some_iff.mp (braceColumn?_eq_some hbrace)).1
          rw [List.length_drop] at hlt
          rw [List.drop_append_of_le_length (by omega),
            occursIn_append (by decide) fun _ hc => hspare.stops.head_not_mem (by decide) hc, hspare.unconstrained,
            Bool.or_false]
      rw [hconstraint]
      cases occursIn "constraint".toList (m.drop head'.column) with
      | false => rfl
      | true => exact congrArg some (capture_height hline.pads (hrest.imp fun _ _ h => h.pads) _)

end Blocks

end AcornCatalog
