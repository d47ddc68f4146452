import AcornCatalog.Proofs.Check.Bracket

/-! Nothing is found in some lines exactly if their brackets form a well-nested word. The stack says what is due: if
nothing is found, the brackets ahead are well-nested words with the closing brackets of the stack between them. Where
something is found, every opening bracket but those left unclosed still answers to one closing bracket, as a closing
bracket takes the top of the stack whether it fits or not. -/

namespace AcornCatalog.Check

open Text

/-! ### Well-nested words -/

/-- The three pairs of brackets. -/
def bracketPairs : List (Char × Char) := [('(', ')'), ('[', ']'), ('{', '}')]

def isOpening (c : Char) : Bool := bracketPairs.any (·.1 == c)

def isClosing (c : Char) : Bool := bracketPairs.any (·.2 == c)

def isBracket (c : Char) : Bool := isOpening c || isClosing c

/-- Words of brackets in which each opening one is closed by the other of its pair, with a well-nested word between
    them. -/
inductive WellNested : List Char → Prop
  | nil : WellNested []
  | pair {opening closing : Char} {inner rest : List Char} (isPair : (opening, closing) ∈ bracketPairs)
      (inside : WellNested inner) (behind : WellNested rest) : WellNested (opening :: inner ++ closing :: rest)

/-- The word closes what is due, innermost first, and is well-nested up to each of these brackets and behind the
    last. -/
def ClosesDue : List Char → List Char → Prop
  | [], w => WellNested w
  | closer :: due, w => ∃ inner rest, w = inner ++ closer :: rest ∧ WellNested inner ∧ ClosesDue due rest

theorem closesDue_pair {opening closing : Char} {due inner rest : List Char}
    (hpair : (opening, closing) ∈ bracketPairs) (hinner : WellNested inner) (hrest : ClosesDue due rest) :
    ClosesDue due (opening :: inner ++ closing :: rest) := by
  cases due with
  | nil => exact WellNested.pair hpair hinner hrest
  | cons closer due =>
    obtain ⟨first, behind, rfl, hfirst, hbehind⟩ := hrest
    exact ⟨opening :: inner ++ closing :: first, behind, by simp, WellNested.pair hpair hinner hfirst, hbehind⟩

/-! ### What a character does -/

theorem closerOf?_eq_some_iff {c closer : Char} : closerOf? c = some closer ↔ (c, closer) ∈ bracketPairs := by
  simp only [closerOf?, bracketPairs, List.mem_cons, Prod.mk.injEq, List.not_mem_nil, or_false]
  grind

theorem isOpening_eq (c : Char) : isOpening c = (closerOf? c).isSome := by
  simp only [isOpening, bracketPairs, closerOf?, List.any_cons, List.any_nil]
  grind

theorem isClosing_eq (c : Char) : isClosing c = isCloser c := by
  simp only [isClosing, bracketPairs, isCloser, List.any_cons, List.any_nil]
  grind

theorem of_mem_bracketPairs {c closer : Char} (h : (c, closer) ∈ bracketPairs) :
    isOpening c = true ∧ isClosing c = false := by
  have hall : ∀ p ∈ bracketPairs, isOpening p.1 = true ∧ isClosing p.1 = false := by decide
  exact hall _ h

/-- What can come of a character where some closing brackets are due: what is found, and what is due behind it. -/
inductive Follows (line : Nat) (c : Char) : List Due → List Finding × List Due → Prop
  | opens {stack : List Due} {closer : Char} (isPair : (c, closer) ∈ bracketPairs) :
      Follows line c stack ([], ⟨closer, line⟩ :: stack)
  | unmatched (closing : isClosing c = true) (notOpening : isOpening c = false) :
      Follows line c [] ([⟨line, .unmatchedClosing c⟩], [])
  | closes {due : Due} {stack : List Due} (closing : isClosing c = true) (notOpening : isOpening c = false)
      (fits : c = due.closer) : Follows line c (due :: stack) ([], stack)
  | mismatched {due : Due} {stack : List Due} (closing : isClosing c = true) (notOpening : isOpening c = false) :
      Follows line c (due :: stack) ([⟨line, .mismatchedBracket due.closer due.line c⟩], stack)
  | passes {stack : List Due} (notBracket : isBracket c = false) : Follows line c stack ([], stack)

theorem follows_bracketStep (stack : List Due) (line : Nat) (c : Char) :
    Follows line c stack (bracketStep stack line c) := by
  unfold bracketStep
  cases hopen : closerOf? c with
  | some closer => exact .opens (closerOf?_eq_some_iff.mp hopen)
  | none =>
    have hnot : isOpening c = false := by rw [isOpening_eq, hopen, Option.isSome_none]
    by_cases hclose : isCloser c = true
    · have hclosing : isClosing c = true := (isClosing_eq c).trans hclose
      simp only [if_pos hclose]
      cases stack with
      | nil => exact .unmatched hclosing hnot
      | cons due stack =>
        by_cases hfits : c = due.closer
        · simp only [if_pos hfits]
          exact .closes hclosing hnot hfits
        · simp only [if_neg hfits]
          exact .mismatched hclosing hnot
    · simp only [if_neg hclose]
      refine .passes ?_
      rw [isBracket, hnot, isClosing_eq, Bool.false_or]
      exact Bool.eq_false_iff.mpr hclose

/-! ### Lines without findings -/

/-- If nothing is found, the brackets ahead close what is due. -/
theorem closesDue_of_no_findings {stack : List Due} {cs : List (Nat × Char)} (h : bracketFindings stack cs = []) :
    ClosesDue (closersDue stack) ((cs.map (·.2)).filter isBracket) := by
  induction cs generalizing stack with
  | nil =>
    obtain rfl : stack = [] := List.map_eq_nil_iff.mp h
    exact WellNested.nil
  | cons x cs ih =>
    obtain ⟨line, c⟩ := x
    rw [bracketFindings_cons, List.append_eq_nil_iff] at h
    obtain ⟨hfound, hrest⟩ := h
    have hnext := ih hrest
    have hstep := follows_bracketStep stack line c
    generalize bracketStep stack line c = next at hfound hstep hnext
    rw [List.map_cons, List.filter_cons]
    cases hstep with
    | opens hpair =>
      obtain ⟨inner, rest, heq, hinner, hbehind⟩ := hnext
      rw [isBracket, (of_mem_bracketPairs hpair).1, Bool.true_or, if_pos rfl, heq]
      exact closesDue_pair hpair hinner hbehind
    | unmatched hclosing hnot => cases hfound
    | closes hclosing hnot hfits =>
      rw [isBracket, hclosing, Bool.or_true, if_pos rfl]
      exact ⟨[], _, by rw [hfits]; rfl, WellNested.nil, hnext⟩
    | mismatched hclosing hnot => cases hfound
    | passes hnot =>
      rw [hnot]
      exact hnext

theorem WellNested.balanced {w : List Char} (h : WellNested w) : Balanced w := by
  induction h with
  | nil => exact fun _ => rfl
  | @pair opening closing inner rest hpair _ _ hinner hrest =>
    have hwhole := (hinner.enclose (closerOf?_eq_some_iff.mpr hpair)).append hrest
    simpa using hwhole

/-- Other characters make no difference to what is found. -/
theorem bracketFindings_filter (stack : List Due) (cs : List (Nat × Char)) :
    bracketFindings stack (cs.filter fun x => isBracket x.2) = bracketFindings stack cs := by
  induction cs generalizing stack with
  | nil => rfl
  | cons x cs ih =>
    obtain ⟨line, c⟩ := x
    rw [List.filter_cons, bracketFindings_cons]
    cases hc : isBracket c with
    | true => rw [if_pos rfl, bracketFindings_cons, ih]
    | false =>
      obtain ⟨hopening, hclosing⟩ : isOpening c = false ∧ isClosing c = false := Bool.or_eq_false_iff.mp hc
      have hstep := follows_bracketStep stack line c
      generalize bracketStep stack line c = next at hstep ⊢
      rw [if_neg Bool.false_ne_true, ih]
      cases hstep with
      | opens hpair => simp [(of_mem_bracketPairs hpair).1] at hopening
      | passes => rfl
      | unmatched h | closes h | mismatched h => simp [h] at hclosing

theorem checkBrackets_eq_nil_iff (ls : List Line) : checkBrackets ls = [] ↔ WellNested (ls.flatten.filter isBracket) := by
  have hword : ((numberedChars ls).map (·.2)).filter isBracket = ls.flatten.filter isBracket := by
    rw [map_snd_numberedChars]
  constructor
  · intro h
    exact hword ▸ closesDue_of_no_findings h
  · intro h
    rw [checkBrackets, ← bracketFindings_filter]
    refine bracketFindings_eq_nil_congr rfl ?_ (h.balanced 0)
    rw [← hword, List.filter_map, List.map_map]
    exact List.map_id _

/-! ### Counting -/

def Finding.isUnclosed (f : Finding) : Bool :=
  match f.problem with
  | .unclosedBracket _ => true
  | _ => false

def Finding.isUnmatched (f : Finding) : Bool :=
  match f.problem with
  | .unmatchedClosing _ => true
  | _ => false

/-- What a step changes: the stack grows by an opening bracket, and shrinks by a closing one unless that is
    unmatched. -/
theorem Follows.count {line : Nat} {c : Char} {stack : List Due} {next : List Finding × List Due}
    (h : Follows line c stack next) :
    next.1.countP Finding.isUnclosed = 0 ∧
      next.2.length + (if isClosing c then 1 else 0) =
        stack.length + (if isOpening c then 1 else 0) + next.1.countP Finding.isUnmatched := by
  cases h with
  | opens hpair => simp [of_mem_bracketPairs hpair]
  | unmatched hclosing hnot => simp [hclosing, hnot, Finding.isUnclosed, Finding.isUnmatched]
  | closes hclosing hnot hfits => simp [hclosing, hnot]
  | mismatched hclosing hnot => simp [hclosing, hnot, Finding.isUnclosed, Finding.isUnmatched]
  | passes hnot =>
    obtain ⟨hopening, hclosing⟩ : isOpening c = false ∧ isClosing c = false := Bool.or_eq_false_iff.mp hnot
    simp [hopening, hclosing]

theorem count_bracketFindings (stack : List Due) (cs : List (Nat × Char)) :
    (bracketFindings stack cs).countP Finding.isUnclosed + (cs.map (·.2)).countP isClosing =
      stack.length + (cs.map (·.2)).countP isOpening + (bracketFindings stack cs).countP Finding.isUnmatched := by
  induction cs generalizing stack with
  | nil =>
    have hunclosed : (stack.map fun due => (⟨due.line, .unclosedBracket due.closer⟩ : Finding)).countP
        Finding.isUnclosed = stack.length := by
      rw [List.countP_map]
      exact List.countP_eq_length.mpr fun _ _ => rfl
    have hunmatched : (stack.map fun due => (⟨due.line, .unclosedBracket due.closer⟩ : Finding)).countP
        Finding.isUnmatched = 0 := by
      rw [List.countP_map, List.countP_eq_zero]
      exact fun _ _ => Bool.false_ne_true
    simp only [bracketFindings, hunclosed, hunmatched, List.map_nil, List.countP_nil]
  | cons x cs ih =>
    obtain ⟨line, c⟩ := x
    obtain ⟨hnone, hstep⟩ := (follows_bracketStep stack line c).count
    have hrest := ih (bracketStep stack line c).2
    simp only [bracketFindings_cons, List.countP_append, List.map_cons, List.countP_cons, hnone]
    omega

/-! ### Line numbers -/

/-- The line numbers that a finding speaks of: its own, and that of a bracket which something else closes. -/
def Finding.lineNumbers (f : Finding) : List Nat :=
  f.line :: match f.problem with
    | .mismatchedBracket _ line _ => [line]
    | _ => []

/-- A finding speaks of the lines of the characters and of what is due only. -/
theorem lineNumbers_of_mem {stack : List Due} {cs : List (Nat × Char)} {P : Nat → Prop}
    (hstack : ∀ due ∈ stack, P due.line) (hcs : ∀ x ∈ cs, P x.1) :
    ∀ f ∈ bracketFindings stack cs, ∀ n ∈ f.lineNumbers, P n := by
  induction cs generalizing stack with
  | nil =>
    intro f hf n hn
    obtain ⟨due, hdue, rfl⟩ := List.mem_map.mp hf
    rw [List.mem_singleton.mp hn]
    exact hstack due hdue
  | cons x cs ih =>
    obtain ⟨line, c⟩ := x
    obtain ⟨hline, hrest⟩ := List.forall_mem_cons.mp hcs
    have hstep := follows_bracketStep stack line c
    rw [bracketFindings_cons]
    generalize bracketStep stack line c = next at hstep ⊢
    rw [List.forall_mem_append]
    cases hstep with
    | opens hpair => exact ⟨nofun, ih (List.forall_mem_cons.mpr ⟨hline, hstack⟩) hrest⟩
    | unmatched hclosing hnot =>
      refine ⟨fun f hf n hn => ?_, ih hstack hrest⟩
      rw [List.mem_singleton.mp hf] at hn
      rwa [List.mem_singleton.mp hn]
    | closes hclosing hnot hfits => exact ⟨nofun, ih (List.forall_mem_cons.mp hstack).2 hrest⟩
    | mismatched hclosing hnot =>
      obtain ⟨hdue, hbelow⟩ := List.forall_mem_cons.mp hstack
      refine ⟨fun f hf n hn => ?_, ih hbelow hrest⟩
      rw [List.mem_singleton.mp hf] at hn
      rcases List.mem_cons.mp hn with rfl | hn
      · exact hline
      · rwa [List.mem_singleton.mp hn]
    | passes hnot => exact ⟨nofun, ih hstack hrest⟩

theorem number_of_mem_numberedChars {ls : List Line} {x : Nat × Char} (h : x ∈ numberedChars ls) :
    1 ≤ x.1 ∧ x.1 ≤ ls.length := by
  obtain ⟨⟨line, number⟩, hline, hx⟩ := List.mem_flatMap.mp h
  obtain ⟨c, -, rfl⟩ := List.mem_map.mp hx
  obtain ⟨hleast, hmost, -⟩ := List.mem_zipIdx hline
  exact ⟨hleast, by omega⟩

/-- Nothing is found in some lines exactly if their brackets form a well-nested word. Whatever is found, as many opening
    brackets are not unclosed as closing ones are not unmatched, and no line is spoken of that there is not. -/
theorem checkBrackets_exact (ls : List Line) :
    (checkBrackets ls = [] ↔ WellNested (ls.flatten.filter isBracket)) ∧
      (ls.flatten.countP isOpening : Int) - (checkBrackets ls).countP Finding.isUnclosed =
        (ls.flatten.countP isClosing : Int) - (checkBrackets ls).countP Finding.isUnmatched ∧
      ∀ f ∈ checkBrackets ls, ∀ n ∈ f.lineNumbers, 1 ≤ n ∧ n ≤ ls.length := by
  refine ⟨checkBrackets_eq_nil_iff ls, ?_, ?_⟩
  · have hcount := count_bracketFindings [] (numberedChars ls)
    rw [map_snd_numberedChars, List.length_nil] at hcount
    rw [checkBrackets]
    omega
  · exact lineNumbers_of_mem (fun due hdue => absurd hdue List.not_mem_nil) fun x hx => number_of_mem_numberedChars hx

/-- The wrong bracket takes the top of the stack, so one is left over at each end. -/
example : (checkBrackets ["( [ )".toList, "] \x7d".toList]).map (fun f => (f.line, f.problem)) =
    [(1, .mismatchedBracket ']' 1 ')'), (2, .mismatchedBracket ')' 1 ']'), (2, .unmatchedClosing '}')] := by decide

end AcornCatalog.Check
