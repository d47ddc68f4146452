import AcornCatalog.Check.Bracket

/-! Brackets without findings. The stack of closing brackets that are due says how many more of each kind will come, so
that what follows an opening brace closes one brace more than it opens. Characters that close what they open leave the
stack as they found it, so they can be taken out of a text, or put into one, without a change to what is found in the
rest. -/

namespace AcornCatalog.Check

open Text

/-! ### One character at a time -/

/-- What a character gives, some closing brackets being due: what is found there, and what is due behind it. -/
def bracketStep (stack : List Due) (line : Nat) (c : Char) : List Finding × List Due :=
  match closerOf? c with
  | some closer => ([], ⟨closer, line⟩ :: stack)
  | none =>
    if isCloser c then
      match stack with
      | [] => ([⟨line, .unmatchedClosing c⟩], [])
      | due :: stack =>
        (if c = due.closer then [] else [⟨line, .mismatchedBracket due.closer due.line c⟩], stack)
    else ([], stack)

theorem bracketFindings_cons (stack : List Due) (line : Nat) (c : Char) (rest : List (Nat × Char)) :
    bracketFindings stack ((line, c) :: rest) =
      (bracketStep stack line c).1 ++ bracketFindings (bracketStep stack line c).2 rest := by
  cases hopen : closerOf? c with
  | some closer =>
    simp only [bracketFindings, bracketStep, hopen]
    rfl
  | none =>
    by_cases hclose : isCloser c = true
    · cases stack with
      | nil =>
        simp only [bracketFindings, bracketStep, hopen, if_pos hclose]
        rfl
      | cons due stack =>
        simp only [bracketFindings, bracketStep, hopen, if_pos hclose]
        split <;> rfl
    · simp only [bracketFindings, bracketStep, hopen, if_neg hclose]
      rfl

/-- A character without findings leaves what lies below the stack. -/
theorem bracketStep_append {stack : List Due} {line : Nat} {c : Char} (h : (bracketStep stack line c).1 = [])
    (below : List Due) : bracketStep (stack ++ below) line c = ([], (bracketStep stack line c).2 ++ below) := by
  unfold bracketStep at h ⊢
  split
  · rfl
  · next hnone =>
    simp only [hnone] at h ⊢
    split
    · next hclose =>
      rw [if_pos hclose] at h
      cases stack with
      | nil => cases h
      | cons due stack =>
        simp only [List.cons_append, Prod.mk.injEq, and_true]
        exact h
    · rfl

/-- What is due behind some characters. -/
def dueAfter (stack : List Due) (xs : List (Nat × Char)) : List Due :=
  xs.foldl (fun due x => (bracketStep due x.1 x.2).2) stack

theorem dueAfter_append (stack : List Due) (xs ys : List (Nat × Char)) :
    dueAfter stack (xs ++ ys) = dueAfter (dueAfter stack xs) ys := List.foldl_append

theorem dueAfter_singleton (stack : List Due) (n : Nat) (c : Char) :
    dueAfter stack [(n, c)] = (bracketStep stack n c).2 := rfl

/-- What is found behind some characters depends on them only for what is due there. -/
theorem exists_bracketFindings_append (stack : List Due) (xs ys : List (Nat × Char)) :
    ∃ found, bracketFindings stack (xs ++ ys) = found ++ bracketFindings (dueAfter stack xs) ys := by
  induction xs generalizing stack with
  | nil => exact ⟨[], rfl⟩
  | cons x xs ih =>
    obtain ⟨n, c⟩ := x
    obtain ⟨found, hfound⟩ := ih (bracketStep stack n c).2
    refine ⟨(bracketStep stack n c).1 ++ found, ?_⟩
    rw [List.cons_append, bracketFindings_cons, hfound, List.append_assoc]
    rfl

/-- If nothing is found in the whole, nothing is found in the rest with what is due there. -/
theorem no_findings_dueAfter {stack : List Due} {xs ys : List (Nat × Char)}
    (h : bracketFindings stack (xs ++ ys) = []) : bracketFindings (dueAfter stack xs) ys = [] := by
  obtain ⟨found, hfound⟩ := exists_bracketFindings_append stack xs ys
  rw [h] at hfound
  exact (List.append_eq_nil_iff.mp hfound.symm).2

/-! ### Braces among the brackets -/

theorem closerOf?_eq_some {c closer : Char} (h : closerOf? c = some closer) : c ≠ '}' ∧ (closer = '}' ↔ c = '{') := by
  unfold closerOf? at h
  split at h
  · cases h
    subst c
    decide
  · split at h
    · cases h
      subst c
      decide
    · split at h
      · cases h
        subst c
        decide
      · cases h

theorem ne_brace_of_closerOf? {c : Char} (h : closerOf? c = none) : c ≠ '{' := by
  rintro rfl
  cases h

/-- How many closing braces are due. -/
def dueBraces (stack : List Due) : Nat := stack.countP (·.closer == '}')

/-- If nothing is found, the characters close the braces they open, and those that were due. -/
theorem count_of_no_findings {stack : List Due} {cs : List (Nat × Char)} (h : bracketFindings stack cs = []) :
    (cs.map (·.2)).count '}' = (cs.map (·.2)).count '{' + dueBraces stack := by
  fun_induction bracketFindings stack cs with
  | case1 stack =>
    rw [List.map_eq_nil_iff] at h
    subst h
    rfl
  | case2 stack line c rest closer hopen ih =>
    obtain ⟨hc, hcloser⟩ := closerOf?_eq_some hopen
    have := ih h
    simp only [dueBraces, List.countP_cons, beq_iff_eq, hcloser] at this
    simp only [dueBraces, List.map_cons, List.count_cons, beq_iff_eq, hc, if_false]
    omega
  | case3 line c rest hnone hclose ih => cases h
  | case4 line rest due stack hnone hclose ih =>
    have := ih h
    have hc := ne_brace_of_closerOf? hnone
    simp only [dueBraces] at this
    simp only [dueBraces, List.map_cons, List.count_cons, List.countP_cons, beq_iff_eq, hc, if_false]
    omega
  | case5 line c rest hnone hclose due stack hfits ih => cases h
  | case6 stack line c rest hnone hclose ih =>
    have := ih h
    have hc := ne_brace_of_closerOf? hnone
    have hc' : c ≠ '}' := fun heq => by simp [isCloser, heq] at hclose
    simp only [List.map_cons, List.count_cons, beq_iff_eq, hc, hc', if_false]
    omega

/-- As long as nothing is found, the braces on the stack are those that are open. -/
theorem dueBraces_dueAfter {stack : List Due} {xs ys : List (Nat × Char)}
    (h : bracketFindings stack (xs ++ ys) = []) :
    dueBraces (dueAfter stack xs) + (xs.map (·.2)).count '}' = dueBraces stack + (xs.map (·.2)).count '{' := by
  have hwhole := count_of_no_findings h
  have hrest := count_of_no_findings (no_findings_dueAfter h)
  simp only [List.map_append, List.count_append] at hwhole
  omega

/-! ### Lines -/

theorem map_snd_numbered (ls : List Line) (n : Nat) :
    (((ls.zipIdx n).flatMap fun (line, number) => line.map fun c => (number, c)).map (·.2)) = ls.flatten := by
  induction ls generalizing n with
  | nil => rfl
  | cons line ls ih => simp [List.zipIdx_cons, ih, Function.comp_def]

/-- Behind an opening brace in lines without findings, one brace more is closed than opened. -/
theorem count_behind_brace {before rest : List Line} {front back : Line}
    (h : checkBrackets (before ++ (front ++ '{' :: back) :: rest) = []) :
    (back ++ rest.flatten).count '{' < (back ++ rest.flatten).count '}' := by
  unfold checkBrackets numberedChars at h
  rw [List.zipIdx_append, List.zipIdx_cons, List.flatMap_append, List.flatMap_cons] at h
  simp only [List.map_append, List.map_cons, List.append_assoc, List.cons_append] at h
  have hbehind := no_findings_dueAfter (no_findings_dueAfter h)
  rw [bracketFindings.eq_def] at hbehind
  have hcount := count_of_no_findings hbehind
  rw [List.map_append, map_snd_numbered, List.map_map] at hcount
  simp only [Function.comp_def, List.map_id'] at hcount
  simp only [dueBraces, List.countP_cons] at hcount
  rw [hcount]
  simp

/-! ### Characters that close what they open -/

/-- Characters that close all they find on the stack leave what lies below it. -/
theorem bracketFindings_append {stack : List Due} {xs : List (Nat × Char)} (h : bracketFindings stack xs = [])
    (below : List Due) (ys : List (Nat × Char)) :
    bracketFindings (stack ++ below) (xs ++ ys) = bracketFindings below ys := by
  induction xs generalizing stack with
  | nil =>
    rw [List.map_eq_nil_iff.mp h]
    rfl
  | cons x xs ih =>
    obtain ⟨line, c⟩ := x
    rw [bracketFindings_cons, List.append_eq_nil_iff] at h
    rw [List.cons_append, bracketFindings_cons, bracketStep_append h.1, List.nil_append]
    exact ih h.2

/-- Characters that close what they open can be passed over, wherever they stand. -/
theorem bracketFindings_pass {ys : List (Nat × Char)} (h : bracketFindings [] ys = []) (stack : List Due)
    (xs zs : List (Nat × Char)) :
    bracketFindings stack (xs ++ (ys ++ zs)) = bracketFindings stack (xs ++ zs) := by
  induction xs generalizing stack with
  | nil => exact bracketFindings_append h stack zs
  | cons x xs ih =>
    obtain ⟨line, c⟩ := x
    rw [List.cons_append, List.cons_append, bracketFindings_cons, bracketFindings_cons, ih]

/-! ### Texts that close what they open -/

/-- Every bracket in the text is closed by its own, and none closes what the text did not open. -/
def Balanced (cs : List Char) : Prop := ∀ line, bracketFindings [] (cs.map fun c => (line, c)) = []

section Balanced

variable {a b cs : List Char}

theorem Balanced.append (ha : Balanced a) (hb : Balanced b) : Balanced (a ++ b) := by
  intro line
  rw [List.map_append]
  exact (bracketFindings_append (ha line) [] _).trans (hb line)

theorem balanced_of_no_bracket (h : ∀ c ∈ cs, closerOf? c = none ∧ isCloser c = false) : Balanced cs := by
  intro line
  induction cs with
  | nil => rfl
  | cons c cs ih =>
    obtain ⟨hopen, hclose⟩ := h c (List.mem_cons_self ..)
    rw [List.map_cons, bracketFindings_cons, bracketStep, hopen, hclose]
    exact ih fun d hd => h d (List.mem_cons_of_mem _ hd)

theorem Balanced.enclose {opening closing : Char} (hclosing : closerOf? opening = some closing) (h : Balanced cs) :
    Balanced (opening :: (cs ++ [closing])) := by
  intro line
  have hcloser : closerOf? closing = none ∧ isCloser closing = true := by
    unfold closerOf? at hclosing
    split at hclosing
    · cases hclosing
      exact ⟨rfl, rfl⟩
    · split at hclosing
      · cases hclosing
        exact ⟨rfl, rfl⟩
      · split at hclosing
        · cases hclosing
          exact ⟨rfl, rfl⟩
        · cases hclosing
  have hinner := bracketFindings_append (h line) [⟨closing, line⟩] [(line, closing)]
  rw [List.nil_append] at hinner
  rw [List.map_cons, List.map_append, bracketFindings_cons, bracketStep, hclosing]
  refine hinner.trans ?_
  rw [bracketFindings_cons, bracketStep, hcloser.1, hcloser.2]
  simp [bracketFindings]

end Balanced

/-! ### Findings under other line numbers -/

/-- The same problem, for a text `k` lines further down: a bracket that is quoted with its line moves along. -/
def Problem.down (k : Nat) : Problem → Problem
  | .mismatchedBracket expected line found => .mismatchedBracket expected (line + k) found
  | p => p

/-- The same finding `k` lines further down. -/
def Finding.down (k : Nat) (f : Finding) : Finding := ⟨f.line + k, f.problem.down k⟩

/-- The same bracket that is due, opened `k` lines further down. -/
def Due.down (k : Nat) (d : Due) : Due := { d with line := d.line + k }

theorem bracketStep_down (k : Nat) (stack : List Due) (line : Nat) (c : Char) :
    bracketStep (stack.map (Due.down k)) (line + k) c =
      Prod.map (List.map (Finding.down k)) (List.map (Due.down k)) (bracketStep stack line c) := by
  unfold bracketStep
  split
  · rfl
  · split
    · cases stack with
      | nil => rfl
      | cons due stack =>
        simp only [List.map_cons, Due.down]
        split <;> rfl
    · rfl

theorem bracketFindings_down (k : Nat) (stack : List Due) (cs : List (Nat × Char)) :
    bracketFindings (stack.map (Due.down k)) (cs.map (Prod.map (· + k) id)) =
      (bracketFindings stack cs).map (Finding.down k) := by
  induction cs generalizing stack with
  | nil =>
    simp only [List.map_nil, bracketFindings, List.map_map]
    rfl
  | cons x cs ih =>
    obtain ⟨line, c⟩ := x
    rw [List.map_cons, Prod.map_apply, bracketFindings_cons, bracketFindings_cons, bracketStep_down, List.map_append,
      ← ih]
    rfl

/-- What is due, without the lines where it was opened. -/
def closersDue (stack : List Due) : List Char := stack.map (·.closer)

theorem bracketStep_congr {stack stack' : List Due} (h : closersDue stack = closersDue stack') (line line' : Nat)
    (c : Char) :
    ((bracketStep stack line c).1 = [] → (bracketStep stack' line' c).1 = []) ∧
      closersDue (bracketStep stack line c).2 = closersDue (bracketStep stack' line' c).2 := by
  unfold bracketStep
  split
  · next closer _ => exact ⟨id, congrArg (closer :: ·) h⟩
  · split
    · cases stack with
      | nil =>
        obtain rfl : stack' = [] := List.map_eq_nil_iff.mp h.symm
        exact ⟨fun hnil => absurd hnil (List.cons_ne_nil _ _), rfl⟩
      | cons due stack =>
        obtain ⟨due', stack'', rfl, hdue, hrest⟩ := List.map_eq_cons_iff.mp h.symm
        refine ⟨fun hnil => ?_, hrest.symm⟩
        simp only at hnil ⊢
        by_cases hfits : c = due.closer
        · exact if_pos (hfits.trans hdue.symm)
        · rw [if_neg hfits] at hnil
          cases hnil
    · exact ⟨id, h⟩

/-- Whether anything is found does not depend on how lines are numbered. -/
theorem bracketFindings_eq_nil_congr {stack stack' : List Due} {xs ys : List (Nat × Char)}
    (hstack : closersDue stack = closersDue stack') (h : xs.map (·.2) = ys.map (·.2))
    (hnil : bracketFindings stack xs = []) : bracketFindings stack' ys = [] := by
  induction xs generalizing stack stack' ys with
  | nil =>
    obtain rfl : ys = [] := List.map_eq_nil_iff.mp h.symm
    obtain rfl : stack = [] := List.map_eq_nil_iff.mp hnil
    obtain rfl : stack' = [] := List.map_eq_nil_iff.mp hstack.symm
    rfl
  | cons x xs ih =>
    obtain ⟨⟨line', c⟩, ys, rfl, hc, hrest⟩ := List.map_eq_cons_iff.mp h.symm
    obtain ⟨line, _⟩ := x
    obtain rfl := hc
    rw [bracketFindings_cons, List.append_eq_nil_iff] at hnil
    obtain ⟨hstep, hdue⟩ := bracketStep_congr hstack line line' c
    rw [bracketFindings_cons, hstep hnil.1, List.nil_append]
    exact ih hdue hrest.symm hnil.2

/-! ### Lines put together -/

theorem numberedChars_append (upper lower : List Line) :
    numberedChars (upper ++ lower) =
      numberedChars upper ++ (numberedChars lower).map (Prod.map (· + upper.length) id) := by
  have hlower : lower.zipIdx (1 + upper.length) = (lower.zipIdx 1).map (Prod.map id (· + upper.length)) := by
    rw [List.map_snd_add_zipIdx_eq_zipIdx, Nat.add_comm]
  simp only [numberedChars, List.zipIdx_append, hlower, List.flatMap_append, List.flatMap_map, List.map_flatMap,
    List.map_map]
  rfl

theorem map_snd_numberedChars (ls : List Line) : (numberedChars ls).map (·.2) = ls.flatten := map_snd_numbered ls 1

/-- Below lines without findings, what is found is what is found in the lower lines alone, further down. -/
theorem checkBrackets_append {upper : List Line} (h : checkBrackets upper = []) (lower : List Line) :
    checkBrackets (upper ++ lower) = (checkBrackets lower).map (Finding.down upper.length) := by
  rw [checkBrackets, numberedChars_append]
  exact (bracketFindings_append h [] _).trans (bracketFindings_down upper.length [] (numberedChars lower))

theorem checkBrackets_eq_nil_congr {ls ls' : List Line} (h : ls.flatten = ls'.flatten) (hnil : checkBrackets ls = []) :
    checkBrackets ls' = [] :=
  bracketFindings_eq_nil_congr rfl (by rw [map_snd_numberedChars, map_snd_numberedChars, h]) hnil

/-- Lines without findings make no difference to whether anything is found in the lines around them. -/
theorem checkBrackets_between {middle : List Line} (h : checkBrackets middle = []) (upper lower : List Line) :
    checkBrackets (upper ++ (middle ++ lower)) = [] ↔ checkBrackets (upper ++ lower) = [] := by
  -- the characters of the lines, those in the middle with and without
  have hmiddle : bracketFindings [] ((numberedChars middle).map (Prod.map (· + upper.length) id)) = [] :=
    bracketFindings_eq_nil_congr rfl (by rw [List.map_map]; rfl) h
  have hpass : checkBrackets (upper ++ (middle ++ lower)) = bracketFindings [] (numberedChars upper ++
      ((numberedChars lower).map (Prod.map (· + middle.length) id)).map (Prod.map (· + upper.length) id)) := by
    rw [checkBrackets, numberedChars_append, numberedChars_append, List.map_append, bracketFindings_pass hmiddle]
  rw [hpass, checkBrackets, numberedChars_append]
  constructor <;> refine bracketFindings_eq_nil_congr rfl ?_ <;>
    simp only [List.map_append, List.map_map, Function.comp_def, Prod.map_snd, id]

end AcornCatalog.Check
