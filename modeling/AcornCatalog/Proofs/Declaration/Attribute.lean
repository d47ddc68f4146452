import AcornCatalog.Proofs.Declaration.Member

/-! The members of an attributes block are read back as they were written. A member is a line without an opening brace,
or a block of lines that ends as soon as no more braces are open, and its first line opens a constant or a method. Lines
that open nothing may stand between the members in any number. Neither are such lines taken for a part of a member, nor
is a line within a member looked at for another one. -/

namespace AcornCatalog

open Text Reader Header

/-! ### Members as written -/

/-- The line opens a member of an attributes block with the given kind and name: a constant by `let`, its name and a
    colon, or a method by `define` and its name, which ends where no small letter, digit or underscore follows. -/
inductive OpensAttribute (line : Line) : Kind → List Char → Prop
  | constant {name gap before rest : List Char} (named : NameFrom isNameChar name) (spaced : gap ≠ [])
      (blankGap : allBlank gap = true) (blankBefore : allBlank before = true)
      (text : trim line = "let".toList ++ (gap ++ (name ++ (before ++ ':' :: rest)))) :
      OpensAttribute line .attributeConstant name
  | method {name gap rest : List Char} (head : name.head?.any isLowerStart = true)
      (lower : ∀ c ∈ name, isLowerChar c = true) (ended : ∀ c ∈ rest.head?, isLowerChar c = false) (spaced : gap ≠ [])
      (blankGap : allBlank gap = true) (text : trim line = "define".toList ++ (gap ++ (name ++ rest))) :
      OpensAttribute line .attributeMethod name

/-- At the end of every line but the last more braces are open than closed, and at the end of the last they are not. -/
def BracesEndWith (ls : List Line) : Prop :=
  ∀ upper lower, ls = upper ++ lower → upper ≠ [] → (0 < braceBalance upper.flatten ↔ lower ≠ [])

theorem bracesEndWith_iff {ls : List Line} :
    BracesEndWith ls ↔ ∀ n < ls.length, (0 < braceBalance (ls.take (n + 1)).flatten ↔ n + 1 < ls.length) := by
  constructor
  · intro h n hn
    have hne : ls.take (n + 1) ≠ [] := by
      rw [← List.length_pos_iff, List.length_take]
      omega
    rw [h _ _ (List.take_append_drop (n + 1) ls).symm hne, ← List.length_pos_iff, List.length_drop]
    omega
  · rintro h upper lower rfl hne
    obtain ⟨n, hn⟩ := Nat.exists_eq_add_of_lt (List.length_pos_iff.mpr hne)
    rw [Nat.zero_add] at hn
    have hupper : (upper ++ lower).take (n + 1) = upper := List.take_left' hn
    have hlength : (upper ++ lower).length = n + 1 + lower.length := by rw [List.length_append, hn]
    rw [← List.length_pos_iff, ← hupper, h n (by omega), hlength]
    omega

instance : DecidablePred BracesEndWith := fun _ => decidable_of_iff _ bracesEndWith_iff.symm

/-- A member as written: one line without an opening brace, or the lines of a block. -/
structure AttributeChunk where
  kind : Kind
  name : List Char
  first : Line
  more : List Line
  opens : OpensAttribute first kind name
  extent : if '{' ∈ first then BracesEndWith (first :: more) else more = []
  unbroken : ∀ l ∈ first :: more, '\n' ∉ l

namespace AttributeChunk

def lines (c : AttributeChunk) : List Line := c.first :: c.more

def text (c : AttributeChunk) : List Char := joinLines c.lines

/-- The definition for `target` that the chunk stands for. The signature of a constant is all of it, and that of a
    method what stands in front of the first brace. -/
def member (target : String) (c : AttributeChunk) : Definition where
  name := target ++ "." ++ String.ofList c.name
  kind := c.kind
  source := String.ofList c.text
  signature := String.ofList (if c.kind = .attributeConstant then trim c.text else signatureOf c.text)
  body := String.ofList (trim c.text)

end AttributeChunk

/-- A part of the body of an attributes block: a line that is blank, a comment or opens no member, or a member. -/
inductive AttributePiece where
  | idle (line : Line) (unbroken : '\n' ∉ line)
      (isIdle : allBlank line = true ∨ "//".toList <+: trim line ∨ ∀ kind name, ¬OpensAttribute line kind name)
  | chunk (c : AttributeChunk)

namespace AttributePiece

def lines : AttributePiece → List Line
  | .idle line _ _ => [line]
  | .chunk c => c.lines

def chunk? : AttributePiece → Option AttributeChunk
  | .idle _ _ _ => none
  | .chunk c => some c

theorem feed_not_mem {p : AttributePiece} {line : Line} (h : line ∈ p.lines) : '\n' ∉ line := by
  cases p with
  | idle l unbroken _ =>
    obtain rfl := List.mem_singleton.mp h
    exact unbroken
  | chunk c => exact c.unbroken line h

end AttributePiece

/-! ### Lines of a block -/

theorem openLines_of_le {balance : Int} (h : balance ≤ 0) (ls : List Line) : openLines balance ls = 0 := by
  cases ls with
  | nil => rfl
  | cons l ls => exact if_neg (by omega)

/-- A block goes on as long as braces are open, whatever comes below it. -/
theorem openLines_append {balance : Int} {more : List Line}
    (h : ∀ upper lower, more = upper ++ lower → (0 < balance + braceBalance upper.flatten ↔ lower ≠ []))
    (below : List Line) : openLines balance (more ++ below) = more.length := by
  have hzero : braceBalance ([] : List Line).flatten = 0 := rfl
  induction more generalizing balance with
  | nil =>
    have hend := h [] [] rfl
    simp only [ne_eq, not_true_eq_false, iff_false] at hend
    exact openLines_of_le (by omega) below
  | cons l more ih =>
    have hopen := (h [] (l :: more) rfl).mpr (List.cons_ne_nil _ _)
    have hrest : openLines (balance + braceBalance l) (more ++ below) = more.length := by
      refine ih fun upper lower heq => ?_
      have hnext := h (l :: upper) lower (congrArg _ heq)
      rwa [List.flatten_cons, braceBalance_append, ← Int.add_assoc] at hnext
    rw [List.cons_append, openLines, if_pos (by omega), hrest, List.length_cons]

theorem AttributeChunk.attributeLines_eq (c : AttributeChunk) (below : List Line) :
    attributeLines c.first (c.more ++ below) = c.lines := by
  have hextent := c.extent
  rw [attributeLines]
  by_cases hbrace : '{' ∈ c.first
  · rw [if_pos hbrace] at hextent
    have hopen : openLines (braceBalance c.first) (c.more ++ below) = c.more.length := by
      refine openLines_append (fun upper lower heq => ?_) below
      have hnext := hextent (c.first :: upper) lower (congrArg _ heq) (List.cons_ne_nil _ _)
      rwa [List.flatten_cons, braceBalance_append] at hnext
    rw [if_pos (List.contains_iff_mem.mpr hbrace), braceLines, hopen, List.take_left]
    rfl
  · rw [if_neg hbrace] at hextent
    rw [if_neg (fun h => hbrace (List.contains_iff_mem.mp h)), lines, hextent]

/-! ### What is read -/

section Reading

variable {line : Line} {kind : Kind} {name : List Char}

theorem read?_binding_iff : binding.read? (trim line) = some name ↔ OpensAttribute line .attributeConstant name := by
  rw [Reader.read?, Option.map_eq_some_iff]
  constructor
  · rintro ⟨⟨w, rest⟩, hread, rfl⟩
    obtain ⟨hname, gap, before, hne, hgap, hbefore, htext⟩ := binding_eq_some_iff.mp hread
    exact .constant hname hne hgap hbefore htext
  · intro h
    cases h with
    | @constant _ gap before rest hname hne hgap hbefore htext =>
      exact ⟨(name, rest), binding_eq_some_iff.mpr ⟨hname, gap, before, hne, hgap, hbefore, htext⟩, rfl⟩

theorem read?_definition_iff : definition.read? (trim line) = some name ↔ OpensAttribute line .attributeMethod name := by
  rw [Reader.read?, Option.map_eq_some_iff]
  constructor
  · rintro ⟨⟨w, rest⟩, hread, rfl⟩
    obtain ⟨hhead, hlower, hended, gap, hne, hgap, htext⟩ := definition_eq_some_iff.mp hread
    exact .method hhead hlower hended hne hgap htext
  · intro h
    cases h with
    | @method _ gap rest hhead hlower hended hne hgap htext =>
      exact ⟨(name, rest), definition_eq_some_iff.mpr ⟨hhead, hlower, hended, gap, hne, hgap, htext⟩, rfl⟩

/-- What `define` opens is no constant. -/
theorem OpensAttribute.read?_binding_eq_none (h : OpensAttribute line .attributeMethod name) :
    binding.read? (trim line) = none := by
  cases h with
  | @method _ gap rest _ _ _ _ _ htext =>
    rw [htext]
    rfl

theorem attributeAt_of_opens_nothing (target : String) (h : ∀ kind name, ¬OpensAttribute line kind name)
    (rest : List Line) : attributeAt target (trim line) line rest = none := by
  have hbinding : binding.read? (trim line) = none :=
    Option.eq_none_iff_forall_ne_some.mpr fun name hread => h _ name (read?_binding_iff.mp hread)
  have hdefinition : definition.read? (trim line) = none :=
    Option.eq_none_iff_forall_ne_some.mpr fun name hread => h _ name (read?_definition_iff.mp hread)
  simp only [attributeAt, hbinding, hdefinition, Option.map_none]

theorem attributeAt_chunk (target : String) (c : AttributeChunk) (below : List Line) :
    attributeAt target (trim c.first) c.first (c.more ++ below) = some (c.member target, c.more.length) := by
  obtain ⟨kind, name, first, more, opens, extent, unbroken⟩ := c
  have hlines := AttributeChunk.attributeLines_eq ⟨kind, name, first, more, opens, extent, unbroken⟩ below
  simp only [AttributeChunk.lines] at hlines
  rw [attributeAt, hlines]
  cases opens with
  | constant named spaced blankGap blankBefore text =>
    rw [read?_binding_iff.mpr (.constant named spaced blankGap blankBefore text)]
    rfl
  | method head lower ended spaced blankGap text =>
    have hopens := OpensAttribute.method head lower ended spaced blankGap text
    simp only [hopens.read?_binding_eq_none, read?_definition_iff.mpr hopens]
    rfl

end Reading

theorem AttributePiece.attributeAt_idle (target : String) {line : Line}
    (h : allBlank line = true ∨ "//".toList <+: trim line ∨ ∀ kind name, ¬OpensAttribute line kind name)
    (rest : List Line) : attributeAt target (trim line) line rest = none := by
  rcases h with hblank | hcomment | hopens
  · have htrim : trim line = [] := by rw [trim, trimStart_of_allBlank hblank]; rfl
    exact attributeAt_of_isIdleLine target _ line rest (by rw [htrim]; rfl)
  · refine attributeAt_of_isIdleLine target _ line rest ?_
    rw [isIdleLine, List.isPrefixOf_iff_prefix.mpr hcomment, Bool.or_true]
  · exact attributeAt_of_opens_nothing target hopens rest

/-- A sweep takes each piece as a whole, the number of the line being of no account. -/
theorem sweep_attributePieces (target : String) (body : List AttributePiece) (number : Nat) :
    sweep (fun _ line rest =>
        let found := attributeAt target (trim line) line rest
        ((found.map (·.1)).toList, (found.map (·.2)).getD 0)) number 0 (body.flatMap AttributePiece.lines) =
      (body.filterMap AttributePiece.chunk?).map (AttributeChunk.member target) := by
  induction body generalizing number with
  | nil => rfl
  | cons p body ih =>
    cases p with
    | idle line unbroken isIdle =>
      rw [List.flatMap_cons, AttributePiece.lines, List.singleton_append, sweep,
        AttributePiece.attributeAt_idle target isIdle]
      exact ih (number + 1)
    | chunk c =>
      rw [List.flatMap_cons, AttributePiece.lines, AttributeChunk.lines, List.cons_append, sweep, attributeAt_chunk]
      simp only [Option.map_some, Option.toList_some, Option.getD_some, List.singleton_append]
      rw [sweep_drop, List.drop_left, ih]
      rfl

/-- The members of a body made of chunks, with idle lines between them, are the chunks: one definition for each, in
    their order, with the kind and name that its first line opens and all of its text. -/
theorem attributeMembers_of_pieces (target : String) (body : List AttributePiece) :
    attributeMembers target (joinLines (body.flatMap AttributePiece.lines)) =
      (body.filterMap AttributePiece.chunk?).map (AttributeChunk.member target) := by
  rw [attributeMembers, membersBy_eq_sweep (attributeAt_of_isIdleLine target)]
  cases hlines : body.flatMap AttributePiece.lines with
  | nil =>
    rw [← sweep_attributePieces target body 0, hlines]
    rfl
  | cons line rest =>
    have hfeed : ∀ l ∈ body.flatMap AttributePiece.lines, '\n' ∉ l := by
      intro l hl
      obtain ⟨p, -, hl⟩ := List.mem_flatMap.mp hl
      exact AttributePiece.feed_not_mem hl
    rw [← hlines, joinLines, cut_intercalate (hlines ▸ List.cons_ne_nil _ _) hfeed, sweep_attributePieces]

/-- A binding inside a method is a part of it, and a line that opens nothing is passed over. -/
theorem attributeMembers_of_pieces_block :
    ∃ body : List AttributePiece,
      body.flatMap AttributePiece.lines = ["let zero: Nat = z", "  define pred(self) -> Nat \x7b",
        "    let n: Nat = self", "  \x7d", "note", "let one: Nat = s"].map String.toList ∧
      (attributeMembers "Nat" (joinLines (body.flatMap AttributePiece.lines))).map
          (fun d => (d.name, d.kind, d.source)) =
        [("Nat.zero", .attributeConstant, "let zero: Nat = z"),
         ("Nat.pred", .attributeMethod, "  define pred(self) -> Nat \x7b\n    let n: Nat = self\n  \x7d"),
         ("Nat.one", .attributeConstant, "let one: Nat = s")] := by
  let zero : AttributeChunk :=
    { kind := .attributeConstant, name := "zero".toList, first := "let zero: Nat = z".toList, more := []
      opens := @OpensAttribute.constant _ "zero".toList [' '] [] " Nat = z".toList ⟨rfl, by decide⟩ (by decide) rfl rfl
        rfl
      extent := by decide
      unbroken := by decide }
  let pred : AttributeChunk :=
    { kind := .attributeMethod, name := "pred".toList, first := "  define pred(self) -> Nat \x7b".toList
      more := ["    let n: Nat = self".toList, "  \x7d".toList]
      opens := @OpensAttribute.method _ "pred".toList [' '] "(self) -> Nat \x7b".toList rfl (List.all_eq_true.mp rfl)
        (by rintro c ⟨⟩; rfl) (by decide) rfl rfl
      extent := by decide
      unbroken := by decide }
  let one : AttributeChunk :=
    { kind := .attributeConstant, name := "one".toList, first := "let one: Nat = s".toList, more := []
      opens := @OpensAttribute.constant _ "one".toList [' '] [] " Nat = s".toList ⟨rfl, by decide⟩ (by decide) rfl rfl
        rfl
      extent := by decide
      unbroken := by decide }
  have hnote (kind : Kind) (name : List Char) : ¬OpensAttribute "note".toList kind name := by
    rintro (⟨-, -, -, -, htext⟩ | ⟨-, -, -, -, -, htext⟩) <;> cases htext
  refine ⟨[.chunk zero, .chunk pred, .idle "note".toList (by decide) (Or.inr (Or.inr hnote)), .chunk one], rfl, ?_⟩
  rw [attributeMembers_of_pieces]
  rfl

end AcornCatalog
