import AcornCatalog.Proofs.Declaration.Brace
import AcornCatalog.Proofs.Declaration.Reading

/-! The texts of theorems and postulates. The head is to end with the brace that closes the first block, and the whole
text with the brace that closes the last one. Where that brace stands below the first line they do; where it stands on
the first line, the rest of the line is taken with it. -/

namespace AcornCatalog

open Text Reader

/-! ### Where a proof opens -/

/-- A text that begins with `by`, blanks and a brace. -/
def OpensProof (cs : List Char) : Prop :=
  ∃ blanks more, allBlank blanks = true ∧ cs = "by".toList ++ blanks ++ '{' :: more

theorem proof_isSome_iff {cs : List Char} : (Header.proof cs).isSome ↔ OpensProof cs := by
  rw [proof_eq]
  constructor
  · intro h
    obtain ⟨_, h⟩ := Option.isSome_iff_exists.mp h
    obtain ⟨behind, hby, h⟩ := Option.bind_eq_some_iff.mp h
    obtain ⟨more, hbrace, -⟩ := Option.map_eq_some_iff.mp h
    refine ⟨behind.takeWhile isBlank, more, List.all_takeWhile, ?_⟩
    have hrest : behind.dropWhile isBlank = '{' :: more := dropLead?_eq_some hbrace
    rw [dropLead?_eq_some hby, List.append_assoc, ← hrest, List.takeWhile_append_dropWhile]
  · rintro ⟨blanks, more, hblanks, rfl⟩
    have hdrop : (blanks ++ '{' :: more).dropWhile isBlank = "\x7b".toList ++ more :=
      trimStart_append_of_allBlank hblanks ('{' :: more)
    rw [List.append_assoc, dropLead?_append_self, Option.bind_some, hdrop, dropLead?_append_self]
    rfl

/-- A proof opens at the leftmost place where it can. -/
theorem proofColumn?_cases (remainder : Line) :
    (proofColumn? remainder = none ∧ ∀ i, ¬OpensProof (remainder.drop i)) ∨
      ∃ gap blanks more, remainder = gap ++ "by".toList ++ blanks ++ '{' :: more ∧ allBlank blanks = true ∧
        (∀ i < gap.length, ¬OpensProof (remainder.drop i)) ∧
        proofColumn? remainder = some (gap ++ "by".toList ++ blanks ++ ['{']).length := by
  have hclosed {j : Nat} (h : Header.proof (remainder.drop j) = none) : ¬OpensProof (remainder.drop j) := by
    rw [← proof_isSome_iff, h]
    exact Bool.false_ne_true
  cases hfirst : first? Header.proof remainder with
  | none =>
    refine Or.inl ⟨by rw [proofColumn?, hfirst]; rfl, fun i => ?_⟩
    rcases Nat.lt_or_ge i remainder.length with hi | hi
    · exact hclosed (first?_eq_none hfirst i hi)
    · rw [List.drop_eq_nil_of_le hi]
      rintro ⟨blanks, more, -, heq⟩
      simp at heq
  | some o =>
    obtain ⟨hread, hleft⟩ := first?_eq_some hfirst
    obtain ⟨blanks, more, hblanks, hdrop⟩ := proof_isSome_iff.mp hread
    have hlength : (remainder.take o.column).length = o.column := by
      have := congrArg List.length hdrop
      simp only [List.length_drop, List.length_append, List.length_cons] at this
      simp only [List.length_take]
      omega
    have hbrace : '{' ∉ "by".toList ++ blanks := by
      rw [List.mem_append, not_or]
      refine ⟨by decide, fun hmem => ?_⟩
      have := List.all_eq_true.mp hblanks '{' hmem
      exact absurd this (by decide)
    have htake : (remainder.drop o.column).takeWhile (· != '{') = "by".toList ++ blanks := by
      rw [hdrop, List.takeWhile_append_of_pos]
      · simp
      · intro c hc
        rw [bne_iff_ne]
        rintro rfl
        exact hbrace hc
    refine Or.inr ⟨remainder.take o.column, blanks, more, ?_, hblanks, ?_, ?_⟩
    · conv_lhs => rw [← List.take_append_drop o.column remainder, hdrop]
      simp
    · rw [hlength]
      exact fun i hi => hclosed (hleft i hi)
    · rw [proofColumn?, hfirst, Option.map_some, htake]
      simp only [List.length_append, hlength, List.length_singleton, Nat.add_assoc]

/-! ### Heads and proofs -/

/-- The block that a statement ends with: that of its proof, if it is a theorem and a proof opens behind the head in the
    same line, and that of its head otherwise. `gap` is what stands between the two. -/
inductive LastBlock {ls : List Line} (kind : Kind) (head : ClosingBrace ls) : List Char → ClosingBrace ls → Prop where
  | head (h : kind = .postulate ∨ ∀ i, ¬OpensProof (head.behind.drop i)) : LastBlock kind head [] head
  | proof {gap blanks inner : List Char} {last : ClosingBrace ls} (hkind : kind = .proposition)
      (hblanks : allBlank blanks = true) (hopens : gap ++ "by".toList ++ blanks ++ ['{'] <+: head.behind)
      (hfirst : ∀ i < gap.length, ¬OpensProof (head.behind.drop i)) (hnested : Nested inner)
      (htext : last.text = head.text ++ gap ++ "by".toList ++ blanks ++ '{' :: inner ++ ['}']) :
      LastBlock kind head gap last

section Read

variable {place : Place} {line : Line} {rest : List Line} {s : Statement} {used : Nat}

theorem lastBlock_of_proofBlock? {head : Block} {brace : ClosingBrace (line :: rest)} {proof? : Option Block}
    {postulated : Bool} (hheight : brace.above.length = head.height) (hcolumn : brace.front.length + 1 = head.column)
    (h : (if postulated then none else proofBlock? (line :: rest) head).mapM id = some proof?) :
    ∃ gap last, LastBlock (if postulated then .postulate else .proposition) brace gap last ∧
      last.above.length = head.height + (proof?.map (·.height)).getD 0 ∧
      last.front.length + 1 = (proof?.map (·.column)).getD head.column := by
  have hproof := mapM_id_eq_some h
  cases postulated with
  | true =>
    obtain rfl : proof? = none := Option.map_eq_none_iff.mp hproof.symm
    exact ⟨[], brace, .head (Or.inl rfl), hheight, hcolumn⟩
  | false =>
    simp only [Bool.false_eq_true, if_false, proofBlock?, brace.behind_eq hheight hcolumn] at hproof
    rcases proofColumn?_cases brace.behind with ⟨hnone, hno⟩ | ⟨gap, blanks, more, heq, hblanks, hfirst, hsome⟩
    · rw [hnone] at hproof
      obtain rfl : proof? = none := Option.map_eq_none_iff.mp hproof.symm
      exact ⟨[], brace, .head (Or.inr hno), hheight, hcolumn⟩
    · rw [hsome] at hproof
      cases proof? with
      | none => cases hproof
      | some proof =>
        have hcapture := Option.some.inj hproof
        obtain ⟨last, hlast, hfront, htext, hnested⟩ := second_block hheight hcolumn hcapture
        have hopens : gap ++ "by".toList ++ blanks ++ ['{'] <+: brace.behind := ⟨more, by rw [heq]; simp⟩
        refine ⟨gap, last, .proof rfl hblanks hopens hfirst hnested ?_, hlast, hfront⟩
        rw [htext, ← List.prefix_iff_eq_take.mp hopens]
        simp

/-- The texts of a statement in terms of the braces that close its first and its last block. -/
theorem Statement.braces_of_read? (h : Statement.read? place line rest = some (s, used)) :
    ∃ (lead inner gap : List Char) (head last : ClosingBrace (line :: rest)),
      '{' ∉ lead ∧ lead ++ ['{'] <+: line ∧ Nested inner ∧ head.text = lead ++ '{' :: inner ++ ['}'] ∧
      LastBlock s.kind head gap last ∧ last.above.length = used ∧
      s.head = String.ofList (trim (head.text ++ head.overrun)) ∧
      s.raw = String.ofList (trim (last.text ++ last.overrun)) ∧ s.source = s.raw := by
  obtain ⟨name, -, h⟩ := Option.bind_eq_some_iff.mp h
  obtain ⟨head, hhead, h⟩ := Option.bind_eq_some_iff.mp h
  obtain ⟨proof?, hproof, h⟩ := Option.bind_eq_some_iff.mp h
  cases h
  obtain ⟨lead, brace, hlead, hline, hheight, hcolumn, htext, hnested⟩ := firstBlock?_eq_some hhead
  obtain ⟨gap, last, hlast, hheight', hcolumn'⟩ := lastBlock_of_proofBlock? hheight hcolumn hproof
  refine ⟨lead, joinLines head.inner, gap, brace, last, hlead, hline, hnested, htext, hlast, hheight', ?_, ?_, rfl⟩
  · exact congrArg String.ofList (trim_excerpt brace hheight hcolumn)
  · exact congrArg String.ofList (trim_excerpt last hheight' hcolumn')

theorem Statement.keyword_of_read? (h : Statement.read? place line rest = some (s, used)) :
    s.kind.label.toList <+: trim line := by
  obtain ⟨name, hname, h⟩ := Option.bind_eq_some_iff.mp h
  obtain ⟨head, -, h⟩ := Option.bind_eq_some_iff.mp h
  obtain ⟨proof?, -, h⟩ := Option.bind_eq_some_iff.mp h
  cases h
  obtain ⟨_, hread, -⟩ := Option.map_eq_some_iff.mp hname
  obtain ⟨_, hkeyword, -⟩ := Option.bind_eq_some_iff.mp hread
  obtain ⟨_, hliteral, -⟩ := Option.bind_eq_some_iff.mp hkeyword
  obtain ⟨behind, hlead, -⟩ := Option.map_eq_some_iff.mp hliteral
  have hstart := trim_prefix_trim ⟨behind, (dropLead?_eq_some hlead).symm⟩
  rw [trim_trimStart] at hstart
  have hpostulate : trim "axiom".toList = "axiom".toList := by decide
  have hproposition : trim "theorem".toList = "theorem".toList := by decide
  split at hstart
  · next hpostulated =>
    rw [hpostulate] at hstart
    rwa [if_pos hpostulated]
  · next hpostulated =>
    rw [hproposition] at hstart
    rwa [if_neg hpostulated]

/-! ### Braces in the texts -/

theorem braceBalance_trim (cs : List Char) : braceBalance (trim cs) = braceBalance cs := by
  simp only [braceBalance, count_trim (c := '{') (by decide), count_trim (c := '}') (by decide)]

theorem Inside.braceBalance_eq {depth left : Nat} {cs : List Char} (h : Inside depth left cs) :
    braceBalance cs = left - depth := by
  have := h.ends
  simp only [braceBalance]
  omega

theorem braceBalance_block {inner : List Char} (h : Nested inner) (lead : List Char) :
    braceBalance (lead ++ '{' :: inner ++ ['}']) = braceBalance lead := by
  have hblock : Nested ('{' :: inner ++ ['}']) := by
    have hinner : Inside 1 1 inner := ⟨fun front hfront => Nat.le_trans (h.stays front hfront) (by omega), by
      have := h.ends
      omega⟩
    exact (Inside.opening.append hinner).append .closing
  rw [List.append_assoc, braceBalance_append, hblock.braceBalance_eq]
  simp

variable {kind : Kind} {gap : List Char} {head last : ClosingBrace (line :: rest)}

theorem LastBlock.text_prefix (h : LastBlock kind head gap last) : head.text <+: last.text := by
  cases h with
  | head _ => exact List.prefix_refl _
  | proof _ _ _ _ _ htext =>
    rw [htext]
    simp only [List.append_assoc]
    exact List.prefix_append ..

theorem LastBlock.braceBalance_text (h : LastBlock kind head gap last) :
    braceBalance last.text = braceBalance head.text + braceBalance gap := by
  cases h with
  | head _ => simp [braceBalance]
  | @proof _ blanks inner _ _ hblanks _ _ hnested htext =>
    have hblank : braceBalance blanks = 0 := by
      rw [← braceBalance_trim, trim, trimStart_of_allBlank hblanks]
      rfl
    have hby : braceBalance "by".toList = 0 := by decide
    rw [htext, braceBalance_block hnested, braceBalance_append, braceBalance_append, braceBalance_append, hblank, hby]
    omega

/-! ### Texts that run over -/

theorem ClosingBrace.mem_text (brace : ClosingBrace (line :: rest)) : '}' ∈ brace.text := by
  rw [brace.text_eq]
  exact List.mem_append_right _ (List.mem_singleton_self _)

/-- What is taken always reaches to the end of the first line. -/
theorem ClosingBrace.line_prefix (brace : ClosingBrace (line :: rest)) : line <+: brace.text ++ brace.overrun := by
  rw [brace.text_eq]
  obtain ⟨above, front, behind, below, hlines⟩ := brace
  cases above with
  | nil =>
    obtain ⟨rfl, rfl⟩ := List.cons.inj hlines
    exact ⟨[], by simp [overrun, fileText]⟩
  | cons first above =>
    obtain ⟨rfl, rfl⟩ := List.cons.inj (hlines.trans List.cons_append)
    simp only [fileText_cons, List.append_assoc]
    exact List.prefix_append ..

theorem LastBlock.overrun_prefix (h : LastBlock kind head gap last) :
    head.text ++ head.overrun <+: last.text ++ last.overrun := by
  by_cases habove : head.above = []
  · -- the head is its line, and the last block reaches at least to the end of that
    have hline : head.text ++ head.overrun = line := by
      rw [head.text_eq]
      obtain ⟨above, front, behind, below, hlines⟩ := head
      obtain rfl : above = [] := habove
      obtain ⟨rfl, rfl⟩ := List.cons.inj hlines
      simp [ClosingBrace.overrun, fileText]
    rw [hline]
    exact last.line_prefix
  · rw [ClosingBrace.overrun, if_neg habove, List.append_nil]
    exact h.text_prefix.trans (List.prefix_append ..)

/-- The texts of a statement begin with its keyword. Its head is what stands up to the brace that closes the first
    block, and its whole text what stands up to the brace that closes the last one, both trimmed, exactly if nothing but
    blanks stands behind the brace where it closes on the first line; otherwise the rest of that line comes with it. In
    any case the whole text begins with the head, and its braces are even but for those in front of the first block,
    between the blocks and in what comes with them. -/
theorem Statement.texts_reach_closing_braces (h : Statement.read? place line rest = some (s, used)) :
    ∃ (lead inner gap : List Char) (head last : ClosingBrace (line :: rest)),
      '{' ∉ lead ∧ Nested inner ∧ head.text = lead ++ '{' :: inner ++ ['}'] ∧ LastBlock s.kind head gap last ∧
      s.kind.label.toList <+: s.head.toList ∧
      s.head.toList = trim (head.text ++ head.overrun) ∧ s.raw.toList = trim (last.text ++ last.overrun) ∧
      (s.head.toList = trim head.text ↔ allBlank head.overrun = true) ∧
      (s.raw.toList = trim last.text ↔ allBlank last.overrun = true) ∧
      s.head.toList <+: s.raw.toList ∧
      braceBalance s.head.toList = braceBalance lead + braceBalance head.overrun ∧
      braceBalance s.raw.toList = braceBalance lead + braceBalance gap + braceBalance last.overrun := by
  have hkeyword := Statement.keyword_of_read? h
  obtain ⟨lead, inner, gap, head, last, hlead, -, hnested, htext, hlast, -, hhead, hraw, -⟩ :=
    Statement.braces_of_read? h
  rw [hhead, hraw, String.toList_ofList, String.toList_ofList]
  refine ⟨lead, inner, gap, head, last, hlead, hnested, htext, hlast, ?_, rfl, rfl, ?_, ?_, ?_, ?_, ?_⟩
  · exact hkeyword.trans (trim_prefix_trim head.line_prefix)
  · exact trim_append_eq_iff (by decide) head.mem_text _
  · exact trim_append_eq_iff (by decide) last.mem_text _
  · exact trim_prefix_trim hlast.overrun_prefix
  · rw [braceBalance_trim, braceBalance_append, htext, braceBalance_block hnested]
  · rw [braceBalance_trim, braceBalance_append, hlast.braceBalance_text, htext, braceBalance_block hnested]

/-- A head that closes on its first line takes the opening of the proof along. -/
theorem Statement.texts_reach_closing_braces_one_line :
    ∃ (s : Statement)
        (head last : ClosingBrace ["theorem refl(b: Bool) \x7b b = b \x7d by \x7b".toList, "\x7d".toList]),
      Statement.read? ⟨⟨0, ["bool.ac"]⟩, 0⟩ "theorem refl(b: Bool) \x7b b = b \x7d by \x7b".toList ["\x7d".toList] =
        some (s, 1) ∧
      s.head = "theorem refl(b: Bool) \x7b b = b \x7d by \x7b" ∧
      (s.head.toList = trim head.text ↔ allBlank head.overrun = true) ∧
      (s.raw.toList = trim last.text ↔ allBlank last.overrun = true) ∧ s.head.toList <+: s.raw.toList := by
  obtain ⟨s, hread, hhead⟩ : ∃ s : Statement,
      Statement.read? ⟨⟨0, ["bool.ac"]⟩, 0⟩ "theorem refl(b: Bool) \x7b b = b \x7d by \x7b".toList ["\x7d".toList] =
        some (s, 1) ∧
      s.head = "theorem refl(b: Bool) \x7b b = b \x7d by \x7b" := ⟨_, rfl, rfl⟩
  obtain ⟨_, _, _, head, last, -, -, -, -, -, -, -, hexact, hexact', hfront, -⟩ :=
    Statement.texts_reach_closing_braces hread
  exact ⟨s, head, last, hread, hhead, hexact, hexact', hfront⟩

end Read

end AcornCatalog
