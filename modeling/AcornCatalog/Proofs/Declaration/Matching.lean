import AcornCatalog.Proofs.Check.Nesting
import AcornCatalog.Proofs.Declaration.Brace
import Mathlib.Data.List.Induction

/-! The brace that a block is closed by, found in two ways. Counted from the opening brace on, it is the first character
up to which more braces close than open. Followed on the stack of brackets that are due, it is the one that takes back
what the opening brace has put there. If nothing is wrong with the brackets of the lines, both are the same brace: what
lies on the stack above the opening brace when the count runs out cannot be braces, and nothing else lets a brace
through. -/

namespace AcornCatalog

open Text

/-! ### Places in lines -/

/-- The character at a place in lines. -/
def charAt? (ls : List Line) (row column : Nat) : Option Char := ls[row]?.bind (·[column]?)

/-- The text from a place in lines up to their end. -/
def textFrom (ls : List Line) (row column : Nat) : List Char := joinLines ((ls.drop row).modifyHead (·.drop column))

/-- The lines up to a place. -/
def linesBefore (ls : List Line) (row column : Nat) : List Line := ls.take row ++ [(ls[row]?.getD []).take column]

section Places

variable {ls rest : List Line} {line : Line} {row : Nat}

theorem textFrom_eq (h : ls.drop row = line :: rest) (column : Nat) :
    textFrom ls row column = joinLines (line.drop column :: rest) := by
  rw [textFrom, h, List.modifyHead_cons]

theorem getElem?_of_drop (h : ls.drop row = line :: rest) : ls[row]? = some line := by
  rw [← List.head?_drop, h, List.head?_cons]

theorem charAt?_eq {l : Line} (h : ls.drop row = l :: rest) (column : Nat) : charAt? ls row column = l[column]? := by
  rw [charAt?, getElem?_of_drop h, Option.bind_some]

theorem linesBefore_eq (h : ls.drop row = line :: rest) (column : Nat) :
    linesBefore ls row column = ls.take row ++ [line.take column] := by
  rw [linesBefore, getElem?_of_drop h, Option.getD_some]

/-- A place with a character is in a line, with the character between what stands before and behind it. -/
theorem exists_line_of_charAt? {column : Nat} {c : Char} (h : charAt? ls row column = some c) :
    ∃ l rest, ls.drop row = l :: rest ∧ l[column]? = some c ∧ l.take (column + 1) = l.take column ++ [c] := by
  obtain ⟨line, hline, hc⟩ := Option.bind_eq_some_iff.mp h
  obtain ⟨hrow, rfl⟩ := List.getElem?_eq_some_iff.mp hline
  exact ⟨ls[row], ls.drop (row + 1), List.drop_eq_getElem_cons hrow, hc, by rw [List.take_add_one, hc]; rfl⟩

theorem length_take_of_drop (h : ls.drop row = line :: rest) : (ls.take row).length = row := by
  have := congrArg List.length h
  simp only [List.length_drop, List.length_cons] at this
  rw [List.length_take]
  omega

variable {part : List Line}

theorem ClosingBrace.drop_add (brace : ClosingBrace part) (h : ls.drop row = part) :
    ls.drop (row + brace.above.length) = (brace.front ++ '}' :: brace.behind) :: brace.below := by
  rw [← List.drop_drop, h, brace.drop_above]

theorem ClosingBrace.take_add (brace : ClosingBrace part) (h : ls.drop row = part) :
    ls.take (row + brace.above.length) = ls.take row ++ brace.above := by
  obtain ⟨above, front, behind, below, rfl⟩ := brace
  rw [List.take_add, h, List.take_left]

theorem ClosingBrace.linesBefore_eq (brace : ClosingBrace part) (h : ls.drop row = part) :
    linesBefore ls (row + brace.above.length) brace.front.length = ls.take row ++ (brace.above ++ [brace.front]) := by
  rw [AcornCatalog.linesBefore_eq (brace.drop_add h), List.take_left, brace.take_add h, List.append_assoc]

theorem ClosingBrace.charAt?_eq (brace : ClosingBrace part) (h : ls.drop row = part) :
    charAt? ls (row + brace.above.length) brace.front.length = some '}' := by
  rw [AcornCatalog.charAt?_eq (brace.drop_add h), List.getElem?_append_right (Nat.le_refl _), Nat.sub_self]
  rfl

end Places

/-! ### Counting braces -/

/-- The first character up to which a text closes more braces than it opens. -/
def surplus? (cs : List Char) : Option Nat :=
  (List.range cs.length).find? fun k => (cs.take (k + 1)).count '{' < (cs.take (k + 1)).count '}'

theorem surplus?_append {inner : List Char} (h : Nested inner) (rest : List Char) :
    surplus? (inner ++ '}' :: rest) = some inner.length := by
  refine List.find?_range_eq_some.mpr ⟨?_, by simp, fun j hj => ?_⟩
  · have htake : (inner ++ '}' :: rest).take (inner.length + 1) = inner ++ ['}'] := List.take_length_add_append 1
    have hends := h.ends
    have hopen : (inner ++ ['}']).count '{' = inner.count '{' := by rw [List.count_append]; rfl
    have hclose : (inner ++ ['}']).count '}' = inner.count '}' + 1 := by rw [List.count_append]; rfl
    rw [htake, hopen, hclose, decide_eq_true_eq]
    omega
  · have htake : (inner ++ '}' :: rest).take (j + 1) = inner.take (j + 1) := List.take_append_of_le_length hj
    have hstays := h.stays _ (List.take_prefix (j + 1) inner)
    rw [htake, Bool.not_eq_true', decide_eq_false_iff_not]
    omega

theorem surplus?_eq_none {cs : List Char} (h : ∀ front, front <+: cs → front.count '}' ≤ front.count '{') :
    surplus? cs = none := by
  refine List.find?_range_eq_none.mpr fun k _ => ?_
  have := h _ (List.take_prefix (k + 1) cs)
  rw [Bool.not_eq_true', decide_eq_false_iff_not]
  omega

theorem Block.surplus?_of_capture_eq_none {ls : List Line} {row column : Nat}
    (h : capture (ls.drop row) column = none) : surplus? (textFrom ls row column) = none := by
  cases hdrop : ls.drop row with
  | nil =>
    rw [textFrom, hdrop]
    rfl
  | cons line rest =>
    rw [hdrop] at h
    rw [textFrom_eq hdrop]
    refine surplus?_eq_none fun front hfront => ?_
    have := closeIn_eq_none (Option.map_eq_none_iff.mp h) front hfront
    omega

/-- The text behind an opening brace is that of the block, and then comes what starts with the closing brace. -/
theorem Block.textFrom_of_capture {ls : List Line} {row column : Nat} {b : Block}
    (h : capture (ls.drop row) column = some b) :
    ∃ c tail, b.column = c + 1 ∧ charAt? ls (row + b.height) c = some '}' ∧ Nested (joinLines b.inner) ∧
      textFrom ls (row + b.height) c = '}' :: tail ∧ textFrom ls row column = joinLines b.inner ++ '}' :: tail := by
  cases hdrop : ls.drop row with
  | nil =>
    rw [hdrop] at h
    cases h
  | cons line rest =>
    rw [hdrop] at h
    obtain ⟨brace, hheight, hcolumn, htext, hnested⟩ := capture_eq_some h
    rw [← hheight]
    refine ⟨brace.front.length, joinLines (brace.behind :: brace.below), hcolumn.symm, brace.charAt?_eq hdrop, hnested,
      ?_, ?_⟩
    · rw [textFrom_eq (brace.drop_add hdrop), List.drop_left]
      exact joinLines_cons_append ['}'] brace.behind brace.below
    · -- the lines as one text, cut at the opening brace and at the closing one
      have hopening : joinLines (line :: rest) = line.take column ++ textFrom ls row column := by
        rw [textFrom_eq hdrop, ← joinLines_cons_append, List.take_append_drop]
      have hclosing : joinLines (line :: rest) = brace.text ++ joinLines (brace.behind :: brace.below) := by
        have hline : brace.front ++ '}' :: brace.behind = (brace.front ++ ['}']) ++ brace.behind := by simp
        conv_lhs => rw [brace.lines_eq]
        rw [joinLines_append (List.cons_ne_nil _ _), hline, joinLines_cons_append, brace.text_eq]
        simp only [List.append_assoc]
      rw [htext, hopening, List.append_assoc, List.append_assoc] at hclosing
      exact List.append_cancel_left hclosing

/-- A block is captured exactly if the text behind its opening brace somewhere closes more braces than it opens. Then it
    is the text up to the first such place, moved left, and the row and the column are those of the brace there. -/
theorem capture_finds_matching_brace (ls : List Line) (row column : Nat) :
    (∀ k, surplus? (textFrom ls row column) = some k →
      ∃ b c, Block.capture (ls.drop row) column = some b ∧ b.content = dedent ((textFrom ls row column).take k) ∧
        b.column = c + 1 ∧ charAt? ls (row + b.height) c = some '}' ∧
        textFrom ls (row + b.height) c = (textFrom ls row column).drop k) ∧
    (surplus? (textFrom ls row column) = none → Block.capture (ls.drop row) column = none) := by
  cases hcapture : Block.capture (ls.drop row) column with
  | none =>
    have hnone := Block.surplus?_of_capture_eq_none hcapture
    refine ⟨fun k hk => ?_, fun _ => rfl⟩
    rw [hnone] at hk
    cases hk
  | some b =>
    obtain ⟨c, tail, hcolumn, hbrace, hnested, hbehind, htext⟩ := Block.textFrom_of_capture hcapture
    have hsurplus : surplus? (textFrom ls row column) = some (joinLines b.inner).length := by
      rw [htext, surplus?_append hnested]
    rw [hsurplus]
    refine ⟨fun k hk => ?_, fun hk => ?_⟩
    · obtain rfl := Option.some.inj hk
      refine ⟨b, c, rfl, ?_, hcolumn, hbrace, ?_⟩
      · rw [htext, List.take_left, Block.content]
      · rw [htext, List.drop_left, hbehind]
    · cases hk

/-- The brace of a block that opens further in does not close it, and the column counts from the start of its line. -/
example : Block.capture ["a \x7b \x7b".toList, " \x7d b \x7d c".toList] 3 =
    some ⟨[" \x7b".toList, " \x7d b ".toList], 1, 6⟩ := by decide

namespace Check

/-! ### Following the stack -/

section Stack

variable {stack : List Due} {xs ys : List (Nat × Char)}

/-- A character takes the top of the stack, or nothing. -/
theorem Follows.tail_or_suffix {n : Nat} {c : Char} {next : List Finding × List Due} (h : Follows n c stack next) :
    next.2 = stack.tail ∨ stack <:+ next.2 := by
  cases h with
  | opens hpair => exact Or.inr (List.suffix_cons ..)
  | unmatched hclosing hnot => exact Or.inl rfl
  | closes hclosing hnot hfits => exact Or.inl rfl
  | mismatched hclosing hnot => exact Or.inl rfl
  | passes hnot => exact Or.inr (List.suffix_refl _)

/-- A closing brace without findings finds a brace on top of the stack. -/
theorem closer_eq_brace {due : Due} {n : Nat} (h : (bracketStep (due :: stack) n '}').1 = []) : due.closer = '}' := by
  by_contra hfits
  have hstep : (bracketStep (due :: stack) n '}').1 = [⟨n, .mismatchedBracket due.closer due.line '}'⟩] :=
    if_neg (Ne.symm hfits)
  rw [hstep] at h
  cases h

/-- A brace stays on the stack as long as what comes behind it closes no more braces than it opens. -/
theorem suffix_dueAfter {due : Due} (hdue : due.closer = '}') (h : bracketFindings (due :: stack) (xs ++ ys) = [])
    (hstays : ∀ front, front <+: xs.map (·.2) → front.count '}' ≤ front.count '{') :
    due :: stack <:+ dueAfter (due :: stack) xs := by
  -- from the front on: only the next character can take the brace, and then the count says that it was not to
  induction xs using List.reverseRecOn generalizing ys with
  | nil => exact List.suffix_refl _
  | append_singleton xs x ih =>
    have hbraces := dueBraces_dueAfter h
    have hcount := hstays _ (List.prefix_refl _)
    rw [List.append_assoc] at h
    obtain ⟨above, habove⟩ := ih h fun front hfront => hstays front (by
      rw [List.map_append]
      exact hfront.trans (List.prefix_append ..))
    obtain ⟨n, c⟩ := x
    rw [dueAfter_append, dueAfter_singleton] at hbraces ⊢
    rcases (follows_bracketStep (dueAfter (due :: stack) xs) n c).tail_or_suffix with htail | hsuffix
    · cases above with
      | nil =>
        rw [htail, ← habove] at hbraces
        simp only [dueBraces, List.nil_append, List.tail_cons, List.countP_cons, hdue] at hbraces
        simp only [beq_self_eq_true, if_true] at hbraces
        omega
      | cons top above =>
        rw [htail, ← habove]
        exact List.suffix_append ..
    · exact (habove ▸ List.suffix_append ..).trans hsuffix

/-- Where what comes behind a brace has closed the braces it opened, a closing brace finds this one on top. -/
theorem dueAfter_eq_of_nested {due : Due} {n : Nat} (hdue : due.closer = '}')
    (h : bracketFindings (due :: stack) (xs ++ (n, '}') :: ys) = []) (hnested : Nested (xs.map (·.2))) :
    dueAfter (due :: stack) xs = due :: stack := by
  have hstays : ∀ front, front <+: xs.map (·.2) → front.count '}' ≤ front.count '{' := fun front hfront => by
    have := hnested.stays front hfront
    omega
  obtain ⟨above, habove⟩ := suffix_dueAfter hdue h hstays
  have hbraces := dueBraces_dueAfter h
  have hends := hnested.ends
  have hstep := no_findings_dueAfter h
  rw [← habove] at hbraces hstep ⊢
  cases above with
  | nil => rfl
  | cons top above =>
    rw [bracketFindings_cons, List.append_eq_nil_iff] at hstep
    have htop := closer_eq_brace hstep.1
    simp only [dueBraces, List.cons_append, List.countP_append, List.countP_cons, htop] at hbraces
    simp only [beq_self_eq_true, if_true] at hbraces
    omega

end Stack

/-! ### The stack at places in lines -/

/-- The characters in front of a place in lines, with their line numbers. -/
def charsBefore (ls : List Line) (row column : Nat) : List (Nat × Char) := numberedChars (linesBefore ls row column)

/-- The numbered characters of lines, cut at one of them. -/
theorem exists_numberedChars_append (upper lower : List Line) (front behind : Line) (c : Char) :
    ∃ tail, numberedChars (upper ++ (front ++ c :: behind) :: lower) =
        numberedChars (upper ++ [front]) ++ (upper.length + 1, c) :: tail ∧
      tail.map (·.2) = behind ++ lower.flatten := by
  have hsplit : ∃ tail, numberedChars (upper ++ (front ++ c :: behind) :: lower) =
      numberedChars (upper ++ [front]) ++ (upper.length + 1, c) :: tail := by
    simp [numberedChars, List.zipIdx_append, List.zipIdx_cons, Nat.add_comm]
  obtain ⟨tail, htail⟩ := hsplit
  refine ⟨tail, htail, ?_⟩
  have hchars := congrArg (List.map (·.2)) htail
  rw [map_snd_numberedChars, List.map_append, map_snd_numberedChars] at hchars
  simpa using hchars.symm

theorem exists_numberedChars_of_drop {ls lower : List Line} {row : Nat} {front behind : Line} {c : Char}
    (h : ls.drop row = (front ++ c :: behind) :: lower) :
    ∃ tail, numberedChars ls = charsBefore ls row front.length ++ (row + 1, c) :: tail := by
  obtain ⟨tail, htail, -⟩ := exists_numberedChars_append (ls.take row) lower front behind c
  rw [← h, List.take_append_drop, length_take_of_drop h] at htail
  exact ⟨tail, by rw [charsBefore, linesBefore_eq h, List.take_left, htail]⟩

/-- The closing brace at the second place is the one that takes from the stack what the opening brace at the first place
    has put there: up to the second place it stays on the stack, there it is the top, and behind it is gone. -/
structure TakenAt (ls : List Line) (row column row' column' : Nat) : Prop where
  behind : charsBefore ls row column ++ [(row + 1, '{')] <+: charsBefore ls row' column'
  within : charsBefore ls row' column' ++ [(row' + 1, '}')] <+: numberedChars ls
  kept : ∀ xs, charsBefore ls row column ++ [(row + 1, '{')] <+: xs → xs <+: charsBefore ls row' column' →
    ⟨'}', row + 1⟩ :: dueAfter [] (charsBefore ls row column) <:+ dueAfter [] xs
  top : dueAfter [] (charsBefore ls row' column') = ⟨'}', row + 1⟩ :: dueAfter [] (charsBefore ls row column)
  taken : dueAfter [] (charsBefore ls row' column' ++ [(row' + 1, '}')]) = dueAfter [] (charsBefore ls row column)

/-- A closing brace that counting finds is the one that takes the opening brace from the stack. -/
theorem takenAt_of_nested {ls : List Line} (h : checkBrackets ls = []) {row column row' column' : Nat}
    {inner tail : List (Nat × Char)} (hnested : Nested (inner.map (·.2)))
    (hopening : charsBefore ls row' column' = charsBefore ls row column ++ (row + 1, '{') :: inner)
    (hclosing : numberedChars ls = charsBefore ls row' column' ++ (row' + 1, '}') :: tail) :
    TakenAt ls row column row' column' := by
  have hopened (xs : List (Nat × Char)) : dueAfter [] (charsBefore ls row column ++ (row + 1, '{') :: xs) =
      dueAfter (⟨'}', row + 1⟩ :: dueAfter [] (charsBefore ls row column)) xs := dueAfter_append ..
  -- nothing is found behind the opening brace
  have hbehind : bracketFindings (⟨'}', row + 1⟩ :: dueAfter [] (charsBefore ls row column))
      (inner ++ (row' + 1, '}') :: tail) = [] := by
    rw [checkBrackets, hclosing, hopening, List.append_assoc] at h
    exact no_findings_dueAfter h
  have htop : dueAfter [] (charsBefore ls row' column') =
      ⟨'}', row + 1⟩ :: dueAfter [] (charsBefore ls row column) := by
    rw [hopening, hopened]
    exact dueAfter_eq_of_nested rfl hbehind hnested
  refine ⟨?_, ?_, fun xs hfirst hlast => ?_, htop, ?_⟩
  · rw [hopening]
    exact ⟨inner, by simp⟩
  · rw [hclosing]
    exact ⟨tail, by simp⟩
  · obtain ⟨part, rfl⟩ := hfirst
    rw [hopening, List.append_assoc, List.prefix_append_right_inj] at hlast
    obtain ⟨more, rfl⟩ := (List.cons_prefix_cons.mp hlast).2
    rw [List.append_assoc] at hbehind
    rw [List.append_assoc]
    refine (suffix_dueAfter rfl hbehind fun front hfront => ?_).trans (hopened part ▸ List.suffix_refl _)
    have := hnested.stays front (by
      rw [List.map_append]
      exact hfront.trans (List.prefix_append ..))
    omega
  · rw [dueAfter_append, htop]
    rfl

end Check

/-- Where nothing is wrong with the brackets of lines, every opening brace has a block, and it closes at the brace that
    takes this opening brace from the stack. -/
theorem capture_closes_at_taking_brace (ls : List Line) (h : Check.checkBrackets ls = []) (row column : Nat)
    (hbrace : charAt? ls row column = some '{') :
    ∃ b c, Block.capture (ls.drop row) (column + 1) = some b ∧ b.column = c + 1 ∧
      charAt? ls (row + b.height) c = some '}' ∧ Check.TakenAt ls row column (row + b.height) c := by
  obtain ⟨line, rest, hdrop, hcolumn, htake⟩ := exists_line_of_charAt? hbrace
  obtain ⟨b, hcapture⟩ := bracesClose_of_checkBrackets h line rest column (hdrop ▸ List.drop_suffix ..) hcolumn
  obtain ⟨brace, first, more, hheight, hfront, hlines, hinner, hnested⟩ := Block.capture_lines hcapture
  refine ⟨b, brace.front.length, hdrop ▸ hcapture, hfront.symm, hheight ▸ brace.charAt?_eq hdrop, ?_⟩
  rw [← hheight]
  -- what stands between the two braces is the text of the block
  have hbefore : linesBefore ls (row + brace.above.length) brace.front.length =
      ls.take row ++ (line.take column ++ '{' :: first) :: more := by
    rw [brace.linesBefore_eq hdrop, hlines, htake, List.append_assoc]
    rfl
  obtain ⟨inner, hopening, hchars⟩ := Check.exists_numberedChars_append (ls.take row) more (line.take column) first '{'
  rw [← hbefore, length_take_of_drop hdrop, ← linesBefore_eq hdrop] at hopening
  obtain ⟨tail, hclosing⟩ := Check.exists_numberedChars_of_drop (brace.drop_add hdrop)
  refine Check.takenAt_of_nested h ?_ hopening hclosing
  rw [hchars]
  exact hnested.of_filter_eq (by rw [filter_isBrace_joinLines, hinner, List.flatten_cons])

/-- The braces and brackets inside are passed over, and the brace is found in the next line. -/
theorem capture_closes_at_taking_brace_mixed :
    let ls := ["f(x) \x7b [ ( \x7b \x7d".toList, ") ] \x7d \x7b".toList, "\x7d".toList]
    Check.checkBrackets ls = [] ∧ charAt? ls 0 5 = some '{' ∧ Check.TakenAt ls 0 5 1 4 := by
  intro ls
  have hchecked : Check.checkBrackets ls = [] := by decide
  have hbrace : charAt? ls 0 5 = some '{' := by decide
  obtain ⟨b, c, hcapture, hcolumn, -, htaken⟩ := capture_closes_at_taking_brace ls hchecked 0 5 hbrace
  have hblock : Block.capture (ls.drop 0) 6 = some ⟨[" [ ( \x7b \x7d".toList, ") ] ".toList], 1, 5⟩ := by decide
  obtain rfl := Option.some.inj (hblock.symm.trans hcapture)
  obtain rfl : 4 = c := Nat.succ.inj hcolumn
  exact ⟨hchecked, hbrace, htaken⟩

end AcornCatalog
