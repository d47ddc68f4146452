import AcornCatalog.Proofs.Dependency.Shape
import AcornCatalog.Proofs.Text.Scan

/-! Texts that go on behind a line feed. All that a text is searched for is found in it with more text behind: a line
feed ends every name, and what began in front of it and goes on behind it is the last that the text has. Only a property
at the very end may become the name of a method, when the parentheses of a call come behind it. -/

namespace AcornCatalog.Dependency

open Text Reader Header

section Probes

variable {α : Type} {probe : Probe α} {r : Reader α} {more text : List Char}

/-- Whatever stands in front, the probe either is the reader or refuses. -/
def Tries (probe : Probe α) (r : Reader α) : Prop := ∀ before, probe before = r ∨ ∀ cs, probe before cs = none

theorem tries_anywhere (r : Reader α) : Tries (anywhere r) r := fun _ => Or.inl rfl

theorem tries_atWordStart (r : Reader α) : Tries (atWordStart r) r := by
  intro before
  unfold atWordStart
  split
  · exact Or.inr fun _ => rfl
  · exact Or.inl rfl

theorem tries_functionCall : Tries functionCall calledName := by
  intro before
  unfold functionCall
  split
  · exact Or.inr fun _ => rfl
  · exact Or.inl rfl

theorem Tries.agrees (h : Tries probe r) (hr : Agrees (anywhere r) more none text) (before : Option Char) :
    Agrees probe more before text := by
  rcases h before with hbefore | hbefore
  · simp only [Agrees, hbefore]
    exact hr
  · exact Or.inr ⟨hbefore _, hbefore _⟩

theorem Tries.silent (h : Tries probe r) (hr : Silent (anywhere r) text) : Silent probe text := by
  intro s hs before
  rcases h before with hbefore | hbefore
  · rw [hbefore]
    exact hr s hs none
  · exact hbefore s

/-! ### Shapes with a mark at the end -/

/-- The reader takes everything up to the first `mark` and the mark too, whatever comes behind it. -/
def ReadsUpTo (mark : Char) (r : Reader α) : Prop := ∀ cs a rest, r cs = some (a, rest) →
  ∃ w, mark ∉ w ∧ cs = w ++ mark :: rest ∧ ∀ rest, r (w ++ mark :: rest) = some (a, rest)

section Marks

variable {mark : Char} (h : ReadsUpTo mark r)
include h

theorem ReadsUpTo.silent (hmark : mark ∉ text) : Silent (anywhere r) text := by
  intro s hs before
  cases hread : r s with
  | none => exact hread
  | some read =>
    obtain ⟨a, rest⟩ := read
    obtain ⟨w, -, rfl, -⟩ := h s a rest hread
    exact absurd (hs.subset (List.mem_append_right _ (List.mem_cons_self ..))) hmark

/-- More text makes a difference only where the mark is not in the text; but there nothing more is read. -/
theorem ReadsUpTo.agrees_or_silent (more text : List Char) :
    Agrees (anywhere r) more none text ∨ Silent (anywhere r) text := by
  cases hread : r text with
  | some read =>
    obtain ⟨a, rest⟩ := read
    obtain ⟨w, -, rfl, hw⟩ := h text a rest hread
    have hmore := hw (rest ++ more)
    rw [← List.cons_append, ← List.append_assoc] at hmore
    exact Or.inl (Or.inl ⟨a, rest, hread, hmore⟩)
  | none =>
    cases hmore : r (text ++ more) with
    | none => exact Or.inl (Or.inr ⟨hread, hmore⟩)
    | some read =>
      obtain ⟨a, left⟩ := read
      obtain ⟨w, hmark, heq, hw⟩ := h _ a left hmore
      refine Or.inr (h.silent fun hmem => ?_)
      rcases List.append_eq_append_iff.mp heq with ⟨z, rfl, -⟩ | ⟨z, rfl, hz⟩
      · exact hmark (List.mem_append_left _ hmem)
      · cases z with
        | nil => exact hmark (by simpa using hmem)
        | cons c z =>
          obtain rfl := (List.cons.inj hz).1
          rw [hw z] at hread
          cases hread

theorem ReadsUpTo.found_subset (hprobe : Tries probe r) (text more : List Char) :
    found probe text ⊆ found probe (text ++ more) := by
  intro a ha
  refine mem_found_append (fun front rest _ _ => ?_) ha
  exact (h.agrees_or_silent more rest).imp (fun hagrees => hprobe.agrees hagrees _) hprobe.silent

end Marks

/-! ### Shapes that a line feed ends -/

/-- There is a line feed in the code, and `more` stands behind it. -/
def Fed (more code tail : List Char) : Prop := '\n' ∈ code ∧ tail = more

theorem passes_fed {p : Char → Bool} (hp : p '\n' = false) : Passes (Fed more) p where
  step c code tail hc hfed := by
    refine ⟨(List.mem_cons.mp hfed.1).resolve_left ?_, hfed.2⟩
    rintro rfl
    rw [hp] at hc
    cases hc
  stop c tail hfed := absurd hfed.1 List.not_mem_nil

theorem agrees_of_steady (h : Steady (Fed more) r) (hfeed : '\n' ∈ text) : Agrees (anywhere r) more none text := by
  rcases h text more ⟨hfeed, rfl⟩ with hnone | ⟨a, rest, tail, ⟨-, rfl⟩, hread, hmore⟩
  · exact Or.inr hnone
  · exact Or.inl ⟨a, rest, hread, hmore⟩

end Probes

theorem steady_typeWord {more : List Char} : Steady (Fed more) (word Char.isUpper isNameChar) :=
  .word (passes_fed rfl) (passes_fed rfl)

theorem steady_lowerWord {more : List Char} : Steady (Fed more) lowerWord := .word (passes_fed rfl) (passes_fed rfl)

theorem steady_dot {more : List Char} : Steady (Fed more) (literal ".") :=
  .literal fun c hc => passes_fed (by rw [List.mem_singleton.mp hc]; rfl)

theorem steady_qualifiedMember {more : List Char} : Steady (Fed more) qualifiedMember :=
  .bind steady_typeWord fun _ => .bind steady_dot fun _ => .bind steady_lowerWord fun _ =>
    .bind (.wordEnd (passes_fed rfl)) fun _ => .pure _

theorem steady_longTypeName {more : List Char} : Steady (Fed more) longTypeName :=
  .bind steady_typeWord fun _ => .bind (.wordEnd (passes_fed rfl)) fun _ => .ite .failure (.pure _)

theorem readsUpTo_quantifier : ReadsUpTo ')' quantifier := by
  intro cs inner rest h
  obtain ⟨q, gap, hq, hgap, hinner, rfl⟩ := quantifier_eq_some_iff.mp h
  refine ⟨q.toList ++ (gap ++ '(' :: inner), fun hmem => ?_, by simp, fun rest => ?_⟩
  · rcases List.mem_append.mp hmem with hmem | hmem
    · rcases hq with rfl | rfl <;> exact absurd hmem (by decide)
    · rcases List.mem_append.mp hmem with hmem | hmem
      · exact absurd (List.all_eq_true.mp hgap _ hmem) (by decide)
      · rcases List.mem_cons.mp hmem with hmem | hmem
        · cases hmem
        · exact hinner hmem
  · exact quantifier_eq_some_iff.mpr ⟨q, gap, hq, hgap, hinner, by simp⟩

theorem readsUpTo_calledName : ReadsUpTo '(' calledName := by
  intro cs name rest h
  obtain ⟨gap, hname, hgap, rfl⟩ := calledName_eq_some_iff.mp h
  refine ⟨name ++ gap, fun hmem => ?_, by simp, fun rest => ?_⟩
  · rcases List.mem_append.mp hmem with hmem | hmem
    · exact absurd (hname.lower _ hmem) (by decide)
    · exact absurd (List.all_eq_true.mp hgap _ hmem) (by decide)
  · exact calledName_eq_some_iff.mpr ⟨gap, hname, hgap, by simp⟩

theorem readsUpTo_methodCall : ReadsUpTo '(' methodCall := by
  intro cs read rest h
  obtain ⟨owner, name⟩ := read
  obtain ⟨gap, howner, hname, hgap, rfl⟩ := methodCall_eq_some_iff.mp h
  refine ⟨owner ++ '.' :: (name ++ gap), fun hmem => ?_, by simp, fun rest => ?_⟩
  · rcases List.mem_append.mp hmem with hmem | hmem
    · exact absurd (howner.lower _ hmem) (by decide)
    · rcases List.mem_cons.mp hmem with hmem | hmem
      · cases hmem
      · rcases List.mem_append.mp hmem with hmem | hmem
        · exact absurd (hname.lower _ hmem) (by decide)
        · exact absurd (List.all_eq_true.mp hgap _ hmem) (by decide)
  · exact methodCall_eq_some_iff.mpr ⟨gap, howner, hname, hgap, by simp⟩

/-! ### Operations -/

section Ends

variable {text front rest : List Char} {mark : Char} (h : text ++ [mark] = front ++ rest)
include h

/-- The end of a text has the last character of it. -/
theorem exists_last (hne : rest ≠ []) : ∃ body, rest = body ++ [mark] := by
  obtain ⟨body, c, rfl⟩ := (List.eq_nil_or_concat rest).resolve_left hne
  rw [List.concat_eq_append, ← List.append_assoc] at h
  obtain ⟨-, rfl⟩ := List.append_singleton_inj.mp h
  exact ⟨body, List.concat_eq_append⟩

theorem eq_nil_of_lower (hmark : isLowerChar mark = false) (hrest : ∀ c ∈ rest, isLowerChar c = true) : rest = [] := by
  by_contra hne
  obtain ⟨body, rfl⟩ := exists_last h hne
  rw [hrest mark (by simp)] at hmark
  cases hmark

end Ends

/-- Where only one variable is left, with nothing behind it that stands in one, there is no operation. -/
theorem silent_operation {w g : List Char} (hw : ∀ c ∈ w, isLowerChar c = true) (hg : ∀ c ∈ g, isLowerChar c = false) :
    Silent (anywhere operation) (w ++ g) := by
  rintro s ⟨u, hu⟩ before
  cases hread : operation s with
  | none => exact hread
  | some read =>
    obtain ⟨⟨left, sign⟩, rest⟩ := read
    obtain ⟨h, right, -, hh, hright, -, rfl⟩ := operation_eq_some_iff.mp hread
    obtain ⟨c, run, rfl, hc, -⟩ := hright.exists_cons
    have hsplit : w ++ g = u ++ (left ++ h) ++ c :: (run ++ rest) := by
      rw [← hu]
      simp
    rcases List.append_eq_append_iff.mp hsplit with ⟨z, -, hz⟩ | ⟨z, hz, -⟩
    · have hlower := hg c (hz ▸ by simp)
      rw [isLowerChar_of_isLowerStart hc] at hlower
      cases hlower
    · obtain ⟨d, h', rfl⟩ := List.exists_cons_of_ne_nil hh.ne_nil
      have hlower := hw d (hz ▸ by simp)
      rw [hh.isLowerChar_eq_false (List.mem_cons_self ..)] at hlower
      cases hlower

theorem operation_agrees_or_silent (body more : List Char) :
    Agrees (anywhere operation) more none (body ++ ['\n']) ∨ Silent (anywhere operation) (body ++ ['\n']) := by
  cases hread : operation (body ++ ['\n']) with
  | some read =>
    obtain ⟨⟨left, sign⟩, rest⟩ := read
    obtain ⟨g, right, hleft, hg, hright, hrest, heq⟩ := operation_eq_some_iff.mp hread
    have hmore : Parted (rest ++ more) := by
      cases rest with
      | cons c rest => exact hrest
      | nil =>
        have hend : body ++ ['\n'] = left ++ g ++ right := by
          rw [heq]
          simp
        exact absurd (eq_nil_of_lower hend rfl hright.lower) hright.ne_nil
    refine Or.inl (Or.inl ⟨(left, sign), rest, hread, ?_⟩)
    exact operation_eq_some_iff.mpr ⟨g, right, hleft, hg, hright, hmore, by rw [heq]; simp⟩
  | none =>
    cases hmore : operation (body ++ ['\n'] ++ more) with
    | none => exact Or.inl (Or.inr ⟨hread, hmore⟩)
    | some read =>
      obtain ⟨⟨left, sign⟩, rest⟩ := read
      obtain ⟨g, right, hleft, hg, hright, hrest, heq⟩ := operation_eq_some_iff.mp hmore
      -- the text ends before the second operand, else the operation were read in it
      have hshort : ∃ z, left ++ g = body ++ ['\n'] ++ z := by
        rw [← List.append_assoc left g] at heq
        rcases List.append_eq_append_iff.mp heq with ⟨z, hz, -⟩ | ⟨z, hz, hbehind⟩
        · exact ⟨z, hz⟩
        · rcases List.append_eq_append_iff.mp hbehind with ⟨y, rfl, rfl⟩ | ⟨y, rfl, -⟩
          · cases y with
            | nil =>
              rw [List.append_nil] at hz
              exact absurd (eq_nil_of_lower hz rfl hright.lower) hright.ne_nil
            | cons c y =>
              have hparted : Parted (c :: y) := hrest
              have hbody : body ++ ['\n'] = left ++ (g ++ (right ++ c :: y)) := by
                rw [hz, List.append_assoc]
              rw [operation_eq_some_iff.mpr ⟨g, right, hleft, hg, hright, hparted, hbody⟩] at hread
              cases hread
          · have hnil := eq_nil_of_lower hz rfl fun c hc => hright.lower c (List.mem_append_left _ hc)
            exact ⟨[], by rw [hz, hnil, List.append_nil, List.append_nil]⟩
      obtain ⟨z, hz⟩ := hshort
      right
      rcases List.append_eq_append_iff.mp hz with ⟨y, hy, rfl⟩ | ⟨y, rfl, -⟩
      · rw [hy]
        exact silent_operation hleft.lower fun c hc => hg.isLowerChar_eq_false (List.mem_append_left _ hc)
      · cases hleft.lower '\n' (by simp)

/-- What is read in the same way with more text behind a line feed, or is not there any more, stays found. -/
theorem found_subset_of_feed {α : Type} {probe : Probe α} {r : Reader α} (hprobe : Tries probe r)
    (h : ∀ body more, Agrees (anywhere r) more none (body ++ ['\n']) ∨ Silent (anywhere r) (body ++ ['\n']))
    (body more : List Char) : found probe (body ++ ['\n']) ⊆ found probe (body ++ ['\n'] ++ more) := by
  intro a ha
  refine mem_found_append (fun front rest hsplit hne => ?_) ha
  obtain ⟨last, rfl⟩ := exists_last hsplit hne
  exact (h last more).imp (fun hagrees => hprobe.agrees hagrees _) hprobe.silent

/-! ### Properties -/

section Properties

variable {owner name shown tail left : List Char}

theorem uncalled_of_not_called (h : (trimStart tail).head? ≠ some '(') (name : List Char) :
    uncalled name tail = some (name, tail) := if_neg h

theorem uncalled_eq_some (h : uncalled name tail = some (shown, left)) :
    shown <+: name ∧ name ++ tail = shown ++ left := by
  unfold uncalled at h
  split at h
  · split at h
    · cases h
    · cases h
      refine ⟨ List.dropLast_prefix _, ?_⟩
      rw [← List.append_assoc, List.dropLast_eq_take, List.take_append_drop]
  · cases h
    exact ⟨List.prefix_rfl, rfl⟩

/-- Where more than blanks follows a name, it decides whether the name is called. -/
theorem uncalled_append {c : Char} (hc : isBlank c = false) (hmem : c ∈ tail) (name more : List Char) :
    uncalled name (tail ++ more) = (uncalled name tail).map fun read => (read.1, read.2 ++ more) := by
  have hhead : (trimStart (tail ++ more)).head? = (trimStart tail).head? := by
    rw [trimStart_append_of_mem hc hmem]
    exact List.head?_append_of_ne_nil _ (List.ne_nil_of_mem (mem_trimStart hc hmem))
  rw [uncalled, uncalled, hhead]
  split
  · split
    · rfl
    · simp
  · rfl

theorem property_of_allBlank {gap : List Char} (howner : IsVariable owner) (hname : IsVariable name)
    (hgap : allBlank gap = true) : property (owner ++ '.' :: (name ++ gap)) = some ((owner, name), gap) := by
  have hnot : (trimStart gap).head? ≠ some '(' := by
    rw [trimStart_of_allBlank hgap]
    exact Option.some_ne_none _ ∘ Eq.symm
  rw [property_append howner hname (parted_of_allBlank hgap), uncalled_of_not_called hnot]
  rfl

theorem property_agrees_or_called (body more : List Char) :
    Agrees (anywhere property) more none (body ++ ['\n']) ∨
      ∃ owner name gap, IsVariable owner ∧ IsVariable name ∧ allBlank gap = true ∧
        body ++ ['\n'] = owner ++ '.' :: (name ++ gap) ∧ (trimStart more).head? = some '(' := by
  by_cases hshape : ∃ owner name tail, IsVariable owner ∧ IsVariable name ∧ Parted tail ∧
      body ++ ['\n'] = owner ++ '.' :: (name ++ tail)
  · obtain ⟨owner, name, tail, howner, hname, htail, heq⟩ := hshape
    have hmore : Parted (tail ++ more) := by
      cases tail with
      | cons c tail => exact htail
      | nil =>
        have hend : body ++ ['\n'] = owner ++ ['.'] ++ name := by
          rw [heq]
          simp
        exact absurd (eq_nil_of_lower hend rfl hname.lower) hname.ne_nil
    have htext : body ++ ['\n'] ++ more = owner ++ '.' :: (name ++ (tail ++ more)) := by
      rw [heq]
      simp
    have hboth := property_append howner hname hmore
    rw [← htext] at hboth
    rcases allBlank_or_exists tail with hblank | ⟨c, hmem, hc⟩
    · by_cases hcalled : (trimStart more).head? = some '('
      · exact Or.inr ⟨owner, name, tail, howner, hname, hblank, heq, hcalled⟩
      · have hread := property_of_allBlank howner hname hblank
        rw [← heq] at hread
        rw [uncalled_of_not_called (by rwa [trimStart_append_of_allBlank hblank])] at hboth
        exact Or.inl (Or.inl ⟨(owner, name), tail, hread, hboth⟩)
    · have hread := property_append howner hname htail
      rw [← heq] at hread
      rw [uncalled_append hc hmem] at hboth
      left
      cases huncalled : uncalled name tail with
      | none =>
        rw [huncalled] at hread hboth
        exact Or.inr ⟨hread, hboth⟩
      | some read =>
        rw [huncalled] at hread hboth
        exact Or.inl ⟨(owner, read.1), read.2, hread, hboth⟩
  · refine Or.inl (Or.inr ⟨?_, ?_⟩)
    · cases hread : property (body ++ ['\n']) with
      | none => exact hread
      | some read =>
        obtain ⟨⟨owner, shown⟩, rest⟩ := read
        obtain ⟨name, tail, howner, hname, htail, heq, -⟩ := property_eq_some hread
        exact absurd ⟨owner, name, tail, howner, hname, htail, heq⟩ hshape
    · cases hread : property (body ++ ['\n'] ++ more) with
      | none => exact hread
      | some read =>
        obtain ⟨⟨owner, shown⟩, rest⟩ := read
        obtain ⟨name, tail, howner, hname, htail, heq, -⟩ := property_eq_some hread
        refine absurd ?_ hshape
        -- neither of the names has a line feed, so the text ends behind them
        have hsplit : body ++ ['\n'] ++ more = owner ++ '.' :: name ++ tail := by
          rw [heq]
          simp
        rcases List.append_eq_append_iff.mp hsplit with ⟨z, hz, -⟩ | ⟨z, hz, rfl⟩
        · have hmem : '\n' ∈ owner ++ '.' :: name := by
            rw [hz]
            simp
          rcases List.mem_append.mp hmem with hmem | hmem
          · cases howner.lower _ hmem
          · rcases List.mem_cons.mp hmem with hmem | hmem
            · cases hmem
            · cases hname.lower _ hmem
        · refine ⟨owner, name, z, howner, hname, ?_, by rw [hz]; simp⟩
          cases z with
          | nil => exact fun c hc => absurd hc (by simp)
          | cons c z => exact htail

/-- A property is read from the beginning of its first name only. -/
theorem opening_of_free {front : List Char} (howner : IsVariable owner) (hname : IsVariable name) (htail : Parted tail)
    (hread : uncalled name tail = some (shown, left))
    (hfree : Free (anywhere property) front (owner ++ '.' :: (name ++ tail))) : Opening front := by
  by_contra hopen
  simp only [Opening, not_forall, not_not] at hopen
  obtain ⟨x, ⟨upper, rfl⟩, hx⟩ := hopen
  obtain ⟨upper, w, heq, hw, hopen⟩ := exists_opening upper hx
  rw [heq] at hfree
  have hlonger : IsVariable (w ++ owner) := hw.append howner
  have hparted : Parted ('.' :: (name ++ tail)) := parted_cons rfl _
  by_cases hup : Free (anywhere property) upper (w ++ (owner ++ '.' :: (name ++ tail)))
  · -- the longer name with its property would be read in front
    obtain ⟨-, hsplit⟩ := uncalled_eq_some hread
    have htext : w ++ (owner ++ '.' :: (name ++ tail)) = w ++ (owner ++ '.' :: shown) ++ left := by
      rw [hsplit]
      simp
    have hproperty : property (w ++ (owner ++ '.' :: shown) ++ left) = some ((w ++ owner, shown), left) := by
      rw [← htext, ← List.append_assoc, property_append hlonger hname htail, hread]
      rfl
    rw [htext] at hup
    have hcovered := hup.covered_of_read hproperty hw.ne_nil
    have hrest : owner ++ '.' :: (name ++ tail) = owner ++ '.' :: shown ++ left := by
      rw [hsplit]
      simp
    rw [hrest, Free, hcovered] at hfree
    simp at hfree
  · -- the longer name is the property of one in front, and belongs to that as a whole
    obtain ⟨up, lower, ⟨u, m⟩, rest, rfl, hne, -, hreach, hshort, hcovered⟩ := exists_reaching hup
    obtain ⟨q, behind, hu, hq, hbehind, hsplit, huncalled⟩ := property_eq_some hreach
    obtain ⟨hshown, htaken⟩ := uncalled_eq_some huncalled
    have hreach' : behind.length < (w ++ owner ++ '.' :: (name ++ tail)).length := by
      have hlength := congrArg List.length htaken
      have hle := hshown.length_le
      simp only [List.length_append] at hlength hshort ⊢
      omega
    have hdot : ∀ c ∈ ['.'], isLowerChar c = false := List.forall_mem_singleton.mpr rfl
    rw [← List.append_assoc w] at hsplit
    have hlower := hopen.of_suffix (List.suffix_append ..)
    obtain ⟨-, rfl, rfl⟩ := eq_of_reaching hne hlower hlonger hparted hu hdot hq hbehind hreach' hsplit
    have hnot : (trimStart ('.' :: (name ++ tail))).head? ≠ some '(' := by
      have hblank : isBlank '.' = false := rfl
      simp [trimStart, hblank]
    rw [uncalled_of_not_called hnot] at huncalled
    cases huncalled
    have hlength : (w ++ (owner ++ '.' :: (name ++ tail))).length - ('.' :: (name ++ tail)).length =
        w.length + owner.length := by
      simp only [List.length_append]
      omega
    rw [hlength] at hcovered
    rw [Free, coveredBehind_append, hcovered, coveredBehind_of_le (Nat.le_add_right _ _),
      Nat.add_sub_cancel_left] at hfree
    exact howner.ne_nil (List.length_eq_zero_iff.mp hfree)

/-- Where a name with a dot behind it begins, no call of a method reaches over from the front. -/
theorem free_methodCall {front : List Char} (howner : IsVariable owner) (hopen : Opening front) :
    Free (anywhere methodCall) front (owner ++ '.' :: tail) := by
  by_contra hbusy
  obtain ⟨upper, lower, ⟨w, m⟩, left, rfl, hne, -, hread, hshort, -⟩ := exists_reaching hbusy
  obtain ⟨gap, hw, hm, hgap, heq⟩ := methodCall_eq_some_iff.mp hread
  have htaken : lower ++ (owner ++ '.' :: tail) = w ++ '.' :: (m ++ gap) ++ ['('] ++ left := by
    rw [heq]
    simp
  obtain ⟨y, hy, hrest⟩ : ∃ y, w ++ '.' :: (m ++ gap) ++ ['('] = lower ++ y ∧ owner ++ '.' :: tail = y ++ left := by
    rcases List.append_eq_append_iff.mp htaken with h | ⟨z, -, rfl⟩
    · exact h
    · simp only [List.length_append] at hshort
      omega
  -- the call goes on to its parenthesis, so the dot behind the name is the dot of the call
  obtain ⟨y, rfl⟩ : ∃ y', y = owner ++ '.' :: y' := by
    rcases List.append_eq_append_iff.mp hrest with ⟨z, rfl, hz⟩ | ⟨z, hz, -⟩
    · cases z with
      | nil =>
        rw [List.append_nil] at hy
        exact absurd (eq_nil_of_lower hy rfl howner.lower) howner.ne_nil
      | cons c z =>
        obtain rfl := (List.cons.inj hz).1
        exact ⟨z, rfl⟩
    · have hnil := eq_nil_of_lower hy rfl fun c hc => howner.lower c (hz ▸ List.mem_append_left _ hc)
      rw [hrest, hnil] at hshort
      exact absurd hshort (Nat.lt_irrefl _)
  have hdot : '.' ∉ w := fun hmem => absurd (hw.lower _ hmem) (by decide)
  have hdot' : '.' ∉ m ++ gap ++ ['('] := by
    intro hmem
    simp only [List.mem_append, List.mem_singleton] at hmem
    rcases hmem with (hmem | hmem) | hmem
    · cases hm.lower _ hmem
    · cases List.all_eq_true.mp hgap _ hmem
    · cases hmem
  rw [List.append_assoc, List.cons_append, ← List.append_assoc lower, List.append_cons_inj_of_notMem hdot hdot'] at hy
  have hlower : IsVariable lower := hw.of_prefix ⟨owner, hy.1.symm⟩ hne
  exact hopen lower (List.suffix_append ..) hlower

/-- A property that only blanks follow reaches over no place where another is read. -/
theorem not_free_of_reaching {upper lower rest gap : List Char} (howner : IsVariable owner) (hname : IsVariable name)
    (hgap : allBlank gap = true) (hlower : lower ≠ []) (hstart : Flush rest) (hne : rest ≠ [])
    (hupper : Free (anywhere property) upper (lower ++ rest))
    (heq : lower ++ rest = owner ++ '.' :: (name ++ gap)) : ¬Free (anywhere property) (upper ++ lower) rest := by
  intro hfree
  obtain ⟨c, rest, rfl⟩ := List.exists_cons_of_ne_nil hne
  have hc : c ∉ gap := fun hmem => by
    have hblank := List.all_eq_true.mp hgap c hmem
    rw [hstart c rfl] at hblank
    cases hblank
  have hread := property_of_allBlank howner hname hgap
  have hsplit : lower ++ c :: rest = owner ++ '.' :: name ++ gap := by
    rw [heq]
    simp
  rcases List.append_eq_append_iff.mp hsplit with ⟨y, hy, hrest⟩ | ⟨y, -, rfl⟩
  · rw [hrest, ← List.append_assoc] at hupper
    rw [← heq, hrest, ← List.append_assoc] at hread
    have hcovered := hupper.covered_of_read hread hlower
    rw [hrest, Free, hcovered] at hfree
    rw [List.length_eq_zero_iff.mp hfree, List.nil_append] at hrest
    exact hc (hrest ▸ List.mem_cons_self ..)
  · exact hc (List.mem_append_right _ (List.mem_cons_self ..))

/-- Where the search for properties stands free, it does so with more text behind. -/
theorem free_property_append {front last : List Char} (hstart : Flush (last ++ ['\n']))
    (hfree : Free (anywhere property) front (last ++ ['\n'])) (more : List Char) :
    Free (anywhere property) front (last ++ ['\n'] ++ more) := by
  refine hfree.append_behind fun upper lower hsplit hlower hupper => (tries_anywhere property).agrees ?_ _
  rw [← List.append_assoc]
  refine (property_agrees_or_called (lower ++ last) more).resolve_right ?_
  rintro ⟨o, n, gap, ho, hn, hgap, heq, -⟩
  rw [List.append_assoc] at heq
  exact not_free_of_reaching ho hn hgap hlower hstart (by simp) hupper heq (hsplit ▸ hfree)

/-- A property at the end of a text is the method of a call, if a parenthesis comes behind. -/
theorem mem_found_methodCall {front gap more : List Char} (howner : IsVariable owner) (hname : IsVariable name)
    (hgap : allBlank gap = true) (hopen : Opening front) (hcalled : (trimStart more).head? = some '(') :
    (owner, name) ∈ found (anywhere methodCall) (front ++ (owner ++ '.' :: (name ++ gap) ++ more)) := by
  obtain ⟨blanks, hblanks, hsplit⟩ := exists_blanks more
  obtain ⟨behind, hbehind⟩ : ∃ behind, more.dropWhile isBlank = '(' :: behind := List.head?_eq_some_iff.mp hcalled
  have hcall : owner ++ '.' :: (name ++ gap) ++ more = owner ++ '.' :: (name ++ (gap ++ blanks ++ '(' :: behind)) := by
    rw [hsplit, hbehind]
    simp
  have hgaps : allBlank (gap ++ blanks) = true := by
    rw [allBlank, List.all_append, Bool.and_eq_true]
    exact ⟨hgap, hblanks⟩
  refine mem_found_iff.mpr ⟨front, _, behind, rfl, by simp, ?_, ?_⟩
  · rw [hcall]
    exact free_methodCall howner hopen
  · exact methodCall_eq_some_iff.mpr ⟨gap ++ blanks, howner, hname, hgaps, hcall⟩

/-- A property stays one with more text behind it, or else it has become the method of a call. -/
theorem property_or_methodCall {body more : List Char} {read : List Char × List Char}
    (h : read ∈ found (anywhere property) (body ++ ['\n'])) :
    read ∈ found (anywhere property) (body ++ ['\n'] ++ more) ∨
      read ∈ found (anywhere methodCall) (body ++ ['\n'] ++ more) := by
  obtain ⟨front, rest, left, htext, hne, hfree, hread⟩ := mem_found_iff.mp h
  obtain ⟨owner, shown⟩ := read
  obtain ⟨name, tail, howner, hname, htail, hrest, huncalled⟩ := property_eq_some hread
  have hstart : Flush rest := hrest ▸ howner.flush_append _
  have hopen := opening_of_free howner hname htail huncalled (hrest ▸ hfree)
  obtain ⟨last, rfl⟩ := exists_last htext hne
  rw [htext, List.append_assoc]
  rcases property_agrees_or_called last more with hagrees | ⟨o, n, gap, ho, hn, hgap, heq, hcalled⟩
  · have hbehind := free_property_append hstart hfree more
    exact Or.inl (mem_found_iff.mpr ⟨front, _, _, rfl, by simp, hbehind, hagrees.read_append hread⟩)
  · -- the call takes the whole name, since nothing but blanks stood behind it
    have hsame := property_of_allBlank ho hn hgap
    rw [← heq, show property (last ++ ['\n']) = some ((owner, shown), left) from hread] at hsame
    cases hsame
    rw [heq]
    exact Or.inr (mem_found_methodCall ho hn hgap hopen hcalled)

end Properties

/-! ### Searches -/

section Searches

variable (body more : List Char)

theorem found_quantifier_subset :
    found (anywhere quantifier) (body ++ ['\n']) ⊆ found (anywhere quantifier) (body ++ ['\n'] ++ more) :=
  readsUpTo_quantifier.found_subset (tries_anywhere _) _ _

theorem found_methodCall_subset :
    found (anywhere methodCall) (body ++ ['\n']) ⊆ found (anywhere methodCall) (body ++ ['\n'] ++ more) :=
  readsUpTo_methodCall.found_subset (tries_anywhere _) _ _

theorem found_functionCall_subset :
    found functionCall (body ++ ['\n']) ⊆ found functionCall (body ++ ['\n'] ++ more) :=
  readsUpTo_calledName.found_subset tries_functionCall _ _

theorem found_qualifiedMember_subset : found (atWordStart qualifiedMember) (body ++ ['\n']) ⊆
    found (atWordStart qualifiedMember) (body ++ ['\n'] ++ more) :=
  found_subset_of_feed (tries_atWordStart _) (fun _ _ => Or.inl (agrees_of_steady steady_qualifiedMember (by simp))) _ _

theorem found_longTypeName_subset : found (atWordStart longTypeName) (body ++ ['\n']) ⊆
    found (atWordStart longTypeName) (body ++ ['\n'] ++ more) :=
  found_subset_of_feed (tries_atWordStart _) (fun _ _ => Or.inl (agrees_of_steady steady_longTypeName (by simp))) _ _

theorem found_operation_subset :
    found (anywhere operation) (body ++ ['\n']) ⊆ found (anywhere operation) (body ++ ['\n'] ++ more) :=
  found_subset_of_feed (tries_anywhere _) operation_agrees_or_silent _ _

end Searches

end AcornCatalog.Dependency
