import AcornCatalog.Declaration.Reading
import AcornCatalog.Proofs.Declaration.Block
import AcornCatalog.Proofs.Text.Blank
import AcornCatalog.Proofs.Text.Line

/-! The brace that closes a block. Between the brace that opens a block and the one that is found for it stands a text
that closes every block it opens and none besides, so the brace is the matching one; and the block's height and column
say where it stands. -/

namespace AcornCatalog

open Text

/-! ### Nesting -/

/-- A text that starts inside a block with `depth` inner blocks open, never leaves the block, and ends with `left` inner
    blocks open. -/
structure Inside (depth left : Nat) (cs : List Char) : Prop where
  stays : ∀ front, front <+: cs → front.count '}' ≤ depth + front.count '{'
  ends : left + cs.count '}' = depth + cs.count '{'

/-- A text that closes every block it opens, and none besides. -/
abbrev Nested (cs : List Char) : Prop := Inside 0 0 cs

/-- Whether a character opens or closes a block. -/
def isBrace (c : Char) : Bool := c == '{' || c == '}'

namespace Inside

variable {depth middle left : Nat} {cs ds : List Char}

theorem of_no_brace (hopen : '{' ∉ cs) (hclose : '}' ∉ cs) : Inside depth depth cs where
  stays := by
    intro front hfront
    rw [List.count_eq_zero.mpr fun hmem => hclose (hfront.subset hmem)]
    exact Nat.zero_le _
  ends := by rw [List.count_eq_zero.mpr hopen, List.count_eq_zero.mpr hclose]

theorem opening : Inside depth (depth + 1) ['{'] where
  stays := by
    intro front hfront
    have hclose : front.count '}' = 0 := List.count_eq_zero.mpr fun hmem => by simpa using hfront.subset hmem
    omega
  ends := rfl

theorem closing : Inside (depth + 1) depth ['}'] where
  stays := by
    intro front hfront
    have := hfront.sublist.count_le '}'
    simp only [List.count_singleton_self] at this
    omega
  ends := rfl

/-- A text that is left at a depth, and one that does not leave the block from there, do not leave it together. -/
theorem stays_append (hcs : Inside depth middle cs)
    (hds : ∀ front, front <+: ds → front.count '}' ≤ middle + front.count '{') :
    ∀ front, front <+: cs ++ ds → front.count '}' ≤ depth + front.count '{' := by
  rintro front ⟨tail, htail⟩
  rcases List.append_eq_append_iff.mp htail with ⟨more, rfl, -⟩ | ⟨more, rfl, rfl⟩
  · exact hcs.stays front (List.prefix_append front more)
  · have hstays := hds more (List.prefix_append more tail)
    have hends := hcs.ends
    simp only [List.count_append]
    omega

theorem append (hcs : Inside depth middle cs) (hds : Inside middle left ds) : Inside depth left (cs ++ ds) where
  stays := hcs.stays_append hds.stays
  ends := by
    have hcs := hcs.ends
    have hds := hds.ends
    simp only [List.count_append]
    omega

/-- Only the braces of a text count. -/
theorem of_filter_eq (h : Inside depth left cs) (heq : cs.filter isBrace = ds.filter isBrace) :
    Inside depth left ds := by
  have hcount (c : Char) (hc : isBrace c = true) {as bs : List Char} (h : as.filter isBrace = bs.filter isBrace) :
      as.count c = bs.count c := by
    rw [← List.count_filter hc, h, List.count_filter hc]
  refine ⟨fun front hfront => ?_, ?_⟩
  · have hbraces := hfront.filter isBrace
    rw [← heq] at hbraces
    obtain ⟨front', hfront', hfilter⟩ := List.prefix_filter_iff.mp hbraces
    rw [hcount '}' rfl hfilter, hcount '{' rfl hfilter]
    exact h.stays front' hfront'
  · rw [← hcount '}' rfl heq, ← hcount '{' rfl heq]
    exact h.ends

end Inside

theorem filter_isBrace_joinLines (ls : List Line) :
    (joinLines ls).filter isBrace = ls.flatten.filter isBrace := by
  induction ls with
  | nil => rfl
  | cons line ls ih =>
    rw [List.flatten_cons, List.filter_append, ← ih]
    cases ls with
    | nil => simp [joinLines]
    | cons next ls =>
      rw [joinLines_cons (List.cons_ne_nil _ _), List.filter_append]
      rfl

/-- If nothing is found wrong with its brackets, a text closes what it opens and nothing besides. -/
theorem nested_of_no_findings {xs : List (Nat × Char)} (h : Check.bracketFindings [] xs = []) :
    Nested (xs.map (·.2)) where
  stays := by
    intro front hfront
    rw [List.prefix_iff_eq_take.mp hfront, ← List.map_take]
    rw [← List.take_append_drop front.length xs] at h
    have hbraces := Check.dueBraces_dueAfter h
    simp only [Check.dueBraces, List.countP_nil] at hbraces
    omega
  ends := by
    have hwhole := Check.count_of_no_findings h
    simp only [Check.dueBraces, List.countP_nil] at hwhole
    omega

/-! ### Closing braces in lines -/

/-- A closing brace in lines, and what stands around it: the lines above, its own line before and behind it, and the
    lines below. -/
structure ClosingBrace (ls : List Line) where
  above : List Line
  front : Line
  behind : Line
  below : List Line
  lines_eq : ls = above ++ (front ++ '}' :: behind) :: below

namespace ClosingBrace

variable {ls : List Line}

/-- The text from the start of the lines up to the brace, which is part of it. -/
def text (brace : ClosingBrace ls) : List Char := joinLines (brace.above ++ [brace.front ++ ['}']])

theorem text_eq (brace : ClosingBrace ls) : brace.text = fileText brace.above ++ brace.front ++ ['}'] := by
  rw [text, joinLines_append (List.cons_ne_nil _ _), joinLines_singleton, List.append_assoc]

theorem drop_above (brace : ClosingBrace ls) :
    ls.drop brace.above.length = (brace.front ++ '}' :: brace.behind) :: brace.below := by
  obtain ⟨above, front, behind, below, rfl⟩ := brace
  exact List.drop_left ..

theorem take_above (brace : ClosingBrace ls) :
    ls.take (brace.above.length + 1) = brace.above ++ [brace.front ++ '}' :: brace.behind] := by
  obtain ⟨above, front, behind, below, rfl⟩ := brace
  rw [List.take_length_add_append]
  rfl

theorem behind_eq (brace : ClosingBrace ls) {height column : Nat} (hheight : brace.above.length = height)
    (hcolumn : brace.front.length + 1 = column) : ((ls.drop height).headD []).drop column = brace.behind := by
  rw [← hheight, brace.drop_above, List.headD_cons, ← hcolumn, List.drop_append]
  simp

/-- A closing brace further on, in the line of this one or below. -/
def further (brace : ClosingBrace ls) (next : ClosingBrace ((brace.front ++ '}' :: brace.behind) :: brace.below)) :
    ClosingBrace ls where
  above := brace.above ++ next.above
  front := next.front
  behind := next.behind
  below := next.below
  lines_eq := by rw [List.append_assoc, ← next.lines_eq, ← brace.lines_eq]

theorem further_text (brace : ClosingBrace ls)
    (next : ClosingBrace ((brace.front ++ '}' :: brace.behind) :: brace.below)) :
    (brace.further next).text = fileText brace.above ++ next.text := by
  rw [text_eq, text_eq, further, fileText_append, List.append_assoc, List.append_assoc, List.append_assoc]

end ClosingBrace

/-! ### Where a block closes -/

/-- What the end of a line that starts inside a block says of its text: how far it stays in the block. -/
def LineEnd.Describes (depth : Nat) (line : Line) : LineEnd → Prop
  | .closes column => ∃ front behind, line = front ++ '}' :: behind ∧ front.length = column ∧ Inside depth 0 front
  | .inside left => Inside depth left line

theorem LineEnd.Describes.shift {e : LineEnd} {depth middle : Nat} {c : Char} {line : Line}
    (hc : Inside depth middle [c]) (h : e.Describes middle line) : e.shift.Describes depth (c :: line) := by
  cases e with
  | closes column =>
    obtain ⟨front, behind, rfl, rfl, hfront⟩ := h
    exact ⟨c :: front, behind, rfl, rfl, hc.append hfront⟩
  | inside left => exact hc.append h

theorem describes_lineEnd (depth : Nat) (line : Line) : (lineEnd depth line).Describes depth line := by
  induction line generalizing depth with
  | nil => exact .of_no_brace List.not_mem_nil List.not_mem_nil
  | cons c line ih =>
    rw [lineEnd.eq_def]
    dsimp only
    split
    · next hc =>
      subst hc
      exact (ih (depth + 1)).shift .opening
    · next hopen =>
      split
      · next hc =>
        subst hc
        cases depth with
        | zero => exact ⟨[], line, rfl, rfl, .of_no_brace List.not_mem_nil List.not_mem_nil⟩
        | succ depth => exact (ih depth).shift .closing
      · next hclose =>
        exact (ih depth).shift (.of_no_brace (by simpa using Ne.symm hopen) (by simpa using Ne.symm hclose))

namespace Block

theorem closeIn_eq_some {depth : Nat} {ls : List Line} {b : Block} (h : closeIn depth ls = some b) :
    ∃ brace : ClosingBrace ls, b = ⟨brace.above ++ [brace.front], brace.above.length, brace.front.length + 1⟩ ∧
      Inside depth 0 (joinLines b.inner) := by
  induction ls generalizing depth b with
  | nil => cases h
  | cons line rest ih =>
    have hline := describes_lineEnd depth line
    rw [closeIn] at h
    split at h
    · next column hend =>
      rw [hend] at hline
      cases h
      obtain ⟨front, behind, rfl, rfl, hfront⟩ := hline
      refine ⟨⟨[], front, behind, rest, rfl⟩, by simp, ?_⟩
      simpa [joinLines] using hfront
    · next left hend =>
      rw [hend] at hline
      obtain ⟨inner, hinner, rfl⟩ := Option.map_eq_some_iff.mp h
      obtain ⟨⟨above, front, behind, below, hrest⟩, rfl, hinside⟩ := ih hinner
      refine ⟨⟨line :: above, front, behind, below, by rw [hrest]; rfl⟩, rfl, ?_⟩
      have hjoin : joinLines (line :: (above ++ [front])) = line ++ (['\n'] ++ joinLines (above ++ [front])) :=
        joinLines_cons (List.append_ne_nil_of_right_ne_nil _ (List.cons_ne_nil _ _)) line
      rw [hjoin]
      have hfeed : Inside left left ['\n'] := .of_no_brace (by decide) (by decide)
      exact Inside.append hline (hfeed.append hinside)

/-- A block that does not close is never left. -/
theorem closeIn_eq_none {depth : Nat} {ls : List Line} (h : closeIn depth ls = none) :
    ∀ front, front <+: joinLines ls → front.count '}' ≤ depth + front.count '{' := by
  induction ls generalizing depth with
  | nil =>
    intro front hfront
    rw [List.prefix_nil.mp hfront]
    exact Nat.zero_le _
  | cons line rest ih =>
    have hline := describes_lineEnd depth line
    rw [closeIn] at h
    split at h
    · cases h
    · next left hend =>
      rw [hend] at hline
      have hrest := ih (Option.map_eq_none_iff.mp h)
      cases rest with
      | nil =>
        rw [joinLines_singleton]
        exact hline.stays
      | cons next rest =>
        rw [joinLines_cons (List.cons_ne_nil _ _)]
        have hfeed : Inside left left ['\n'] := .of_no_brace (by decide) (by decide)
        exact Inside.stays_append hline (hfeed.stays_append hrest)

/-- A block that opens before `column` of a line closes at a brace: its lines are those up to the brace, the first
    without what is in front of the block. -/
theorem capture_lines {line : Line} {rest : List Line} {column : Nat} {b : Block}
    (h : capture (line :: rest) column = some b) :
    ∃ (brace : ClosingBrace (line :: rest)) (first : Line) (more : List Line), brace.above.length = b.height ∧
      brace.front.length + 1 = b.column ∧ brace.above ++ [brace.front] = (line.take column ++ first) :: more ∧
      b.inner = first :: more ∧ Nested (joinLines b.inner) := by
  obtain ⟨b', hclose, rfl⟩ := Option.map_eq_some_iff.mp h
  obtain ⟨⟨above, front, behind, below, hlines⟩, rfl, hinside⟩ := closeIn_eq_some hclose
  cases above with
  | nil =>
    obtain ⟨hline, rfl⟩ := List.cons.inj hlines
    have hcolumn : (line.take column).length = column := by
      have := congrArg List.length hline
      simp only [List.length_drop, List.length_append, List.length_cons] at this
      simp only [List.length_take]
      omega
    refine ⟨⟨[], line.take column ++ front, behind, rest, ?_⟩, front, [], rfl, ?_, rfl, rfl, hinside⟩
    · rw [List.append_assoc, ← hline, List.take_append_drop]
      rfl
    · simp only [List.length_append, hcolumn, List.length_nil]
      rfl
  | cons first above =>
    obtain ⟨rfl, rfl⟩ := List.cons.inj hlines
    refine ⟨⟨line :: above, front, behind, below, rfl⟩, line.drop column, above ++ [front], rfl, rfl, ?_, rfl, hinside⟩
    rw [List.take_append_drop]
    rfl

/-- Up to the brace where a block closes stand what is in front of the block and the text of the block, which is
    nested. -/
theorem capture_eq_some {line : Line} {rest : List Line} {column : Nat} {b : Block}
    (h : capture (line :: rest) column = some b) :
    ∃ brace : ClosingBrace (line :: rest), brace.above.length = b.height ∧ brace.front.length + 1 = b.column ∧
      brace.text = line.take column ++ joinLines b.inner ++ ['}'] ∧ Nested (joinLines b.inner) := by
  obtain ⟨brace, first, more, hheight, hcolumn, hlines, hinner, hnested⟩ := capture_lines h
  refine ⟨brace, hheight, hcolumn, ?_, hnested⟩
  have hfront : fileText brace.above ++ brace.front = joinLines (brace.above ++ [brace.front]) := by
    rw [joinLines_append (List.cons_ne_nil _ _), joinLines_singleton]
  rw [brace.text_eq, hfront, hlines, joinLines_cons_append, hinner]

end Block

/-! ### Blocks of declarations -/

section Blocks

variable {line : Line} {rest : List Line} {b : Block}

theorem take_braceColumn? {line : Line} {column : Nat} (h : braceColumn? line = some column) :
    '{' ∉ line.take column ∧ line.take (column + 1) = line.take column ++ ['{'] := by
  obtain ⟨hlt, hbrace, hfirst⟩ := List.findIdx?_eq_some_iff_getElem.mp h
  refine ⟨fun hmem => ?_, by rw [List.take_succ_eq_append_getElem hlt, beq_iff_eq.mp hbrace]⟩
  obtain ⟨i, hi, heq⟩ := List.mem_iff_getElem.mp hmem
  rw [List.getElem_take] at heq
  rw [List.length_take] at hi
  exact hfirst i (by omega) (beq_iff_eq.mpr heq)

/-- The first block of a line stands behind the first opening brace. -/
theorem firstBlock?_eq_some (h : firstBlock? line rest = some b) :
    ∃ (lead : Line) (brace : ClosingBrace (line :: rest)), '{' ∉ lead ∧ lead ++ ['{'] <+: line ∧
      brace.above.length = b.height ∧ brace.front.length + 1 = b.column ∧
      brace.text = lead ++ '{' :: joinLines b.inner ++ ['}'] ∧ Nested (joinLines b.inner) := by
  obtain ⟨column, hcolumn, hcapture⟩ := Option.bind_eq_some_iff.mp h
  obtain ⟨brace, hheight, hfront, htext, hnested⟩ := Block.capture_eq_some hcapture
  obtain ⟨hopen, hlead⟩ := take_braceColumn? hcolumn
  refine ⟨line.take column, brace, hopen, hlead ▸ List.take_prefix .., hheight, hfront, ?_, hnested⟩
  rw [htext, hlead]
  simp

/-- A second block, which opens in the line where a first one closes. -/
theorem second_block {ls : List Line} {first second : Block} {brace : ClosingBrace ls} {column : Nat}
    (hheight : brace.above.length = first.height) (hcolumn : brace.front.length + 1 = first.column)
    (h : Block.capture (ls.drop first.height) (first.column + column) = some second) :
    ∃ next : ClosingBrace ls, next.above.length = first.height + second.height ∧
      next.front.length + 1 = second.column ∧
      next.text = brace.text ++ brace.behind.take column ++ joinLines second.inner ++ ['}'] ∧
      Nested (joinLines second.inner) := by
  rw [← hheight, brace.drop_above, ← hcolumn] at h
  obtain ⟨next, hnext, hfront, htext, hnested⟩ := Block.capture_eq_some h
  refine ⟨brace.further next, ?_, hfront, ?_, hnested⟩
  · rw [← hheight, ← hnext]
    exact List.length_append
  · have htake : (brace.front ++ '}' :: brace.behind).take (brace.front.length + 1 + column) =
        brace.front ++ '}' :: brace.behind.take column := by
      rw [Nat.add_assoc, List.take_length_add_append, Nat.add_comm 1 column, List.take_succ_cons]
    rw [brace.further_text, htext, htake, brace.text_eq]
    simp

/-- A block that may open has either not opened, or has opened and closed. -/
theorem mapM_id_eq_some {opened : Option (Option Block)} {b? : Option Block} (h : opened.mapM id = some b?) :
    opened = b?.map some := by
  cases opened with
  | none =>
    cases h
    rfl
  | some closed =>
    cases closed with
    | none => cases h
    | some b =>
      cases h
      rfl

/-! ### Texts up to a brace -/

/-- What is taken of a statement behind its closing brace: all of its line if that is the first line, else nothing. -/
def ClosingBrace.overrun {ls : List Line} (brace : ClosingBrace ls) : Line :=
  if brace.above = [] then brace.behind else []

theorem ClosingBrace.overrun_prefix {ls : List Line} (brace : ClosingBrace ls) : brace.overrun <+: brace.behind := by
  unfold overrun
  split
  · exact List.prefix_refl _
  · exact List.nil_prefix

theorem wholeLines_eq (brace : ClosingBrace (line :: rest)) {height : Nat} (h : brace.above.length = height) :
    wholeLines line rest height = String.ofList (trim (brace.text ++ brace.behind)) := by
  have hlines : line :: rest.take height = brace.above ++ [brace.front ++ '}' :: brace.behind] := by
    rw [← brace.take_above, h, List.take_succ_cons]
  rw [wholeLines, hlines, joinLines_append (List.cons_ne_nil _ _), joinLines_singleton, brace.text_eq]
  simp

theorem trim_excerpt (brace : ClosingBrace (line :: rest)) {height column : Nat} (hheight : brace.above.length = height)
    (hcolumn : brace.front.length + 1 = column) :
    trim (joinLines (excerpt (trimStart line) rest height column)) = trim (brace.text ++ brace.overrun) := by
  have hindent : line = line.takeWhile isBlank ++ trimStart line := List.takeWhile_append_dropWhile.symm
  have hblank : allBlank (line.takeWhile isBlank) = true := List.all_takeWhile
  subst hheight hcolumn
  rw [brace.text_eq]
  obtain ⟨above, front, behind, below, hlines⟩ := brace
  cases above with
  | nil =>
    obtain ⟨rfl, rfl⟩ := List.cons.inj hlines
    have hline : fileText [] ++ front ++ ['}'] ++ behind = front ++ '}' :: behind := by simp [fileText]
    simp only [ClosingBrace.overrun, if_true]
    rw [hline, ← trim_trimStart (front ++ '}' :: behind)]
    exact congrArg trim (joinLines_singleton _)
  | cons first above =>
    obtain ⟨rfl, rfl⟩ := List.cons.inj (hlines.trans List.cons_append)
    have hlast : (front ++ '}' :: behind).take (front.length + 1) = front ++ ['}'] := by
      rw [List.take_length_add_append]
      rfl
    have hexcerpt : excerpt (trimStart line) (above ++ (front ++ '}' :: behind) :: below) (above.length + 1)
        (front.length + 1) = (trimStart line :: above) ++ [front ++ ['}']] := by
      simp [excerpt, hlast]
    simp only [ClosingBrace.overrun, List.length_cons, hexcerpt, reduceCtorEq, if_false, List.append_nil]
    rw [joinLines_append (List.cons_ne_nil _ _), joinLines_singleton, fileText_cons, fileText_cons]
    conv_rhs => rw [hindent]
    simp only [List.append_assoc]
    rw [trim_blanks_append hblank]

end Blocks

end AcornCatalog
