import AcornCatalog.Declaration.Header
import AcornCatalog.Proofs.Declaration.Naming
import AcornCatalog.Proofs.Text.Blank
import AcornCatalog.Proofs.Text.Reader
import Mathlib.Data.List.DropRight

/-! Headers with something behind them. A header that ends in a name is read the same if blanks or a slash follow, and
one that ends in a brace if no other brace follows, so that a remark behind a header does not change what it says. Only
the field of a class has to fill its line. -/

namespace AcornCatalog.Header

open Text Reader

/-- What no name goes on with: the first that is not blank, if anything, is a slash. -/
def Stops (tail : List Char) : Prop := ∀ c, (trimStart tail).head? = some c → c = '/'

theorem stops_slash (note : List Char) : Stops ('/' :: note) := by
  rintro c ⟨⟩
  rfl

theorem stops_of_allBlank {tail : List Char} (h : allBlank tail = true) : Stops tail := by
  intro c hc
  rw [trimStart_of_allBlank h] at hc
  cases hc

theorem Stops.trimStart {tail : List Char} (h : Stops tail) : Stops (trimStart tail) := by
  intro c hc
  rw [Text.trimStart, Text.trimStart, List.dropWhile_idempotent] at hc
  exact h c hc

theorem Stops.head {tail : List Char} (h : Stops tail) {c : Char} (hc : tail.head? = some c) :
    isBlank c = true ∨ c = '/' := by
  obtain ⟨rest, rfl⟩ := List.head?_eq_some_iff.mp hc
  cases hblank : isBlank c with
  | true => exact Or.inl rfl
  | false => exact Or.inr (h c (by simp [Text.trimStart, hblank]))

theorem Stops.head_not_mem {tail w : List Char} (h : Stops tail) (hw : isSolid w = true) {c : Char}
    (hc : tail.head? = some c) : c ∉ w := by
  intro hmem
  rcases h.head hc with hblank | rfl
  · rw [isBlank_eq_false_of_isSolid hw hmem] at hblank
    cases hblank
  · exact ne_slash_of_isSolid hw hmem rfl

/-- Blanks in front of the code go, and so do those behind it if it has nothing else. -/
theorem Stops.trimStart_append {tail : List Char} (h : Stops tail) (code : List Char) :
    ∃ tail', Stops tail' ∧ Text.trimStart (code ++ tail) = Text.trimStart code ++ tail' := by
  rcases allBlank_or_exists code with hcode | ⟨c, hmem, hc⟩
  · exact ⟨Text.trimStart tail, h.trimStart, by
      rw [trimStart_append_of_allBlank hcode, trimStart_of_allBlank hcode, List.nil_append]⟩
  · exact ⟨tail, h, trimStart_append_of_mem hc hmem tail⟩

/-! ### Headers that end in a name -/

section Names

/-- The reader does not see what stands behind the code, if no name goes on with it. -/
abbrev SteadyBeforeStop {α : Type} (r : Reader α) : Prop := Steady (fun _ tail => Stops tail) r

theorem toNat_of_isNameChar {c : Char} (h : isNameChar c = true) : 0x30 ≤ c.toNat ∧ c.toNat ≤ 0x7A := by
  have within {least most : Char} (hfrom : least.val ≤ c.val) (hto : c.val ≤ most.val) (hleast : 0x30 ≤ least.toNat)
      (hmost : most.toNat ≤ 0x7A) : 0x30 ≤ c.toNat ∧ c.toNat ≤ 0x7A :=
    ⟨Nat.le_trans hleast (UInt32.le_iff_toNat_le.mp hfrom), Nat.le_trans (UInt32.le_iff_toNat_le.mp hto) hmost⟩
  simp only [isNameChar_eq, Bool.or_eq_true, beq_iff_eq] at h
  rcases h with ((hupper | hlower) | hdigit) | rfl
  · obtain ⟨hfrom, hto⟩ : 'A'.val ≤ c.val ∧ c.val ≤ 'Z'.val := of_decide_eq_true hupper
    exact within hfrom hto (by decide) (by decide)
  · obtain ⟨hfrom, hto⟩ := Bool.and_eq_true_iff.mp hlower
    exact within (of_decide_eq_true hfrom) (of_decide_eq_true hto) (by decide) (by decide)
  · obtain ⟨hfrom, hto⟩ := Bool.and_eq_true_iff.mp hdigit
    exact within (of_decide_eq_true hfrom) (of_decide_eq_true hto) (by decide) (by decide)
  · decide

theorem isBlank_eq_false_of_isNameChar {c : Char} (h : isNameChar c = true) : isBlank c = false := by
  have hrange := toNat_of_isNameChar h
  simp only [isBlank, Bool.or_eq_false_iff, Bool.and_eq_false_iff, decide_eq_false_iff_not, beq_eq_false_iff_ne]
  omega

theorem isWordChar_of_isNameChar {c : Char} (h : isNameChar c = true) : isWordChar c = true := by
  have hplain : c.toNat < 0x80 := Nat.lt_of_le_of_lt (toNat_of_isNameChar h).2 (by decide)
  rwa [isWordChar, isAlphanumeric, if_pos hplain]

theorem isNameChar_eq_false_of_isBlank {c : Char} (h : isBlank c = true) : isNameChar c = false := by
  cases hc : isNameChar c with
  | false => rfl
  | true =>
    rw [isBlank_eq_false_of_isNameChar hc] at h
    cases h

theorem passes_of_isNameChar {p : Char → Bool} (h : ∀ c, p c = true → isNameChar c = true) :
    Passes (fun _ tail => Stops tail) p where
  step _ _ _ _ := id
  stop c tail hstop := by
    cases hc : p c with
    | false => rfl
    | true =>
      rcases hstop.head rfl with hblank | rfl
      · rw [isBlank_eq_false_of_isNameChar (h c hc)] at hblank
        cases hblank
      · exact absurd (h '/' hc) (by decide)

theorem steady_literal {t : String} (h : isSolid t.toList = true) : SteadyBeforeStop (literal t) := by
  refine .literal fun c hc => ⟨fun _ _ _ _ => id, fun d tail hstop => beq_eq_false_iff_ne.mpr ?_⟩
  rintro rfl
  exact hstop.head_not_mem h rfl hc

theorem steady_typeName : SteadyBeforeStop typeName :=
  .word (passes_of_isNameChar fun _ => isNameChar_of_isUpper) (passes_of_isNameChar fun _ => id)

theorem steady_functionName : SteadyBeforeStop functionName :=
  .word (passes_of_isNameChar fun _ => isNameChar_of_isLowerStart)
    (passes_of_isNameChar fun _ => isNameChar_of_isLowerChar)

theorem steady_blanks : SteadyBeforeStop blanks := by
  intro code tail hstop
  obtain ⟨tail', hstop', heq⟩ := hstop.trimStart_append code
  exact Or.inr ⟨(), trimStart code, tail', hstop', rfl, congrArg (fun rest => some ((), rest)) heq⟩

theorem someBlanks_cons (c : Char) (cs : List Char) :
    someBlanks (c :: cs) = if isBlank c then some ((), trimStart cs) else none := by
  cases hc : isBlank c with
  | false => exact bind_eq_none (bind_eq_none (by simp [one, hc]))
  | true => exact bind_eq_of_some (bind_eq_of_some (by simp [one, hc]; rfl))

theorem blanks_append {gap : List Char} (hgap : allBlank gap = true) {c : Char} (hc : isBlank c = false)
    (rest : List Char) : blanks (gap ++ c :: rest) = some ((), c :: rest) := by
  have hstart : trimStart (gap ++ c :: rest) = c :: rest := by
    rw [trimStart_append_of_allBlank hgap]
    simp [trimStart, hc]
  exact congrArg (fun rest => some ((), rest)) hstart

theorem someBlanks_append {gap : List Char} (hne : gap ≠ []) (hgap : allBlank gap = true) {c : Char}
    (hc : isBlank c = false) (rest : List Char) : someBlanks (gap ++ c :: rest) = some ((), c :: rest) := by
  obtain ⟨b, gap, rfl⟩ := List.exists_cons_of_ne_nil hne
  simp only [allBlank, List.all_cons, Bool.and_eq_true] at hgap
  rw [List.cons_append, someBlanks_cons, if_pos hgap.1, trimStart_append_of_allBlank hgap.2]
  simp [trimStart, hc]

theorem someBlanks_eq_some {cs rest : List Char} {u : Unit} (h : someBlanks cs = some (u, rest)) :
    ∃ gap, gap ≠ [] ∧ allBlank gap = true ∧ cs = gap ++ rest := by
  cases cs with
  | nil => cases h
  | cons c cs =>
    rw [someBlanks_cons] at h
    split at h
    · next hc =>
      cases h
      refine ⟨c :: cs.takeWhile isBlank, List.cons_ne_nil _ _, by simp [allBlank, hc], ?_⟩
      rw [List.cons_append, trimStart, List.takeWhile_append_dropWhile]
    · cases h

theorem keyword_eq_some {keyword : String} {cs rest : List Char} {u : Unit}
    (h : Header.keyword keyword cs = some (u, rest)) :
    ∃ gap, gap ≠ [] ∧ allBlank gap = true ∧ cs = keyword.toList ++ (gap ++ rest) := by
  obtain ⟨⟨_, spaced⟩, hliteral, hblanks⟩ := Option.bind_eq_some_iff.mp h
  obtain ⟨_, hlead, heq⟩ := Option.map_eq_some_iff.mp hliteral
  cases heq
  obtain ⟨gap, hne, hgap, rfl⟩ := someBlanks_eq_some hblanks
  exact ⟨gap, hne, hgap, dropLead?_eq_some hlead⟩

theorem keyword_append {keyword : String} {gap : List Char} (hne : gap ≠ []) (hgap : allBlank gap = true) {c : Char}
    (hc : isBlank c = false) (rest : List Char) :
    Header.keyword keyword (keyword.toList ++ (gap ++ c :: rest)) = some ((), c :: rest) := by
  have hliteral : literal keyword (keyword.toList ++ (gap ++ c :: rest)) = some ((), gap ++ c :: rest) := by
    rw [literal, dropLead?_append_self]
    rfl
  rw [Header.keyword, bind_eq_of_some hliteral]
  exact someBlanks_append hne hgap hc rest

/-- The texts that are read as the opening of a binding. -/
theorem binding_eq_some_iff {cs name rest : List Char} :
    binding cs = some (name, rest) ↔ NameFrom isNameChar name ∧ ∃ gap before, gap ≠ [] ∧ allBlank gap = true ∧
      allBlank before = true ∧ cs = "let".toList ++ (gap ++ (name ++ (before ++ ':' :: rest))) := by
  constructor
  · intro h
    obtain ⟨⟨_, spaced⟩, hlet, h⟩ := Option.bind_eq_some_iff.mp h
    obtain ⟨⟨w, behind⟩, hword, h⟩ := Option.bind_eq_some_iff.mp h
    obtain ⟨⟨_, tail⟩, hcolon, h⟩ := Option.bind_eq_some_iff.mp h
    cases h
    have hbehind : behind.dropWhile isBlank = ':' :: rest := literal_eq_some.mp hcolon
    obtain ⟨gap, hne, hgap, rfl⟩ := keyword_eq_some hlet
    obtain ⟨hhead, hname, -, rfl⟩ := (word_eq_some_iff fun _ => id).mp hword
    refine ⟨⟨hhead, hname⟩, gap, behind.takeWhile isBlank, hne, hgap, List.all_takeWhile, ?_⟩
    rw [← hbehind, List.takeWhile_append_dropWhile]
  · rintro ⟨hname, gap, before, hne, hgap, hbefore, rfl⟩
    obtain ⟨c, run, heq, hc, -⟩ := hname.exists_cons
    have hlet : keyword "let" ("let".toList ++ (gap ++ (name ++ (before ++ ':' :: rest)))) =
        some ((), name ++ (before ++ ':' :: rest)) := by
      rw [heq]
      exact keyword_append hne hgap (isBlank_eq_false_of_isNameChar hc) _
    have hword : span1 isNameChar (name ++ (before ++ ':' :: rest)) = some (name, before ++ ':' :: rest) := by
      refine word_append hname fun d hd => ?_
      -- a blank or the colon ends the name
      cases before with
      | nil =>
        cases hd
        rfl
      | cons b before =>
        cases hd
        exact isNameChar_eq_false_of_isBlank (List.all_eq_true.mp hbefore d (List.mem_cons_self ..))
    have hcolon : literal ":" (':' :: rest) = some ((), rest) := rfl
    rw [binding, bind_eq_of_some hlet, bind_eq_of_some hword, bind_eq_of_some (blanks_append hbefore (by decide) rest),
      bind_eq_of_some hcolon]
    rfl

/-- The texts that are read as the opening of a definition. Its name ends with the first character that is neither a
    small letter nor a digit nor an underscore. -/
theorem definition_eq_some_iff {cs name rest : List Char} :
    definition cs = some (name, rest) ↔ name.head?.any isLowerStart = true ∧ (∀ c ∈ name, isLowerChar c = true) ∧
      (∀ c ∈ rest.head?, isLowerChar c = false) ∧
        ∃ gap, gap ≠ [] ∧ allBlank gap = true ∧ cs = "define".toList ++ (gap ++ (name ++ rest)) := by
  have hlower : ∀ c, isLowerStart c = true → isLowerChar c = true := fun _ => isLowerChar_of_isLowerStart
  constructor
  · intro h
    obtain ⟨⟨_, spaced⟩, hdefine, hword⟩ := Option.bind_eq_some_iff.mp h
    obtain ⟨gap, hne, hgap, rfl⟩ := keyword_eq_some hdefine
    obtain ⟨hhead, hname, hrest, rfl⟩ := (word_eq_some_iff hlower).mp hword
    exact ⟨hhead, hname, hrest, gap, hne, hgap, rfl⟩
  · rintro ⟨hhead, hname, hrest, gap, hne, hgap, rfl⟩
    have hword := (word_eq_some_iff hlower).mpr ⟨hhead, hname, hrest, rfl⟩
    cases name with
    | nil => cases hhead
    | cons c run =>
      have hc : isBlank c = false :=
        isBlank_eq_false_of_isNameChar (isNameChar_of_isLowerChar (hname c (List.mem_cons_self ..)))
      rw [definition, List.cons_append, bind_eq_of_some (keyword_append hne hgap hc (run ++ rest))]
      exact hword

/-- The blanks that stand behind a keyword may be part of what follows the code, but then nothing else is there. -/
theorem steady_someBlanks {α : Type} {r : Reader α} (hr : SteadyBeforeStop r) (hnil : r [] = none) :
    SteadyBeforeStop (someBlanks >>= fun _ => r) := by
  intro code tail hstop
  cases code with
  | nil =>
    refine Or.inl ⟨bind_eq_none rfl, ?_⟩
    cases tail with
    | nil => exact bind_eq_none rfl
    | cons c tail =>
      cases hc : isBlank c with
      | false => exact bind_eq_none (by rw [List.nil_append, someBlanks_cons, hc]; rfl)
      | true =>
        have hread : someBlanks ([] ++ c :: tail) = some ((), trimStart tail) := by
          rw [List.nil_append, someBlanks_cons, hc]
          rfl
        have hrest : Stops (trimStart tail) := by
          have := hstop.trimStart
          rwa [trimStart, List.dropWhile_cons_of_pos hc] at this
        rw [bind_eq_of_some hread]
        rcases hr [] (trimStart tail) hrest with ⟨-, hnone⟩ | ⟨a, rest, tail', -, hsome, -⟩
        · exact hnone
        · rw [hnil] at hsome
          cases hsome
  | cons c code =>
    cases hc : isBlank c with
    | false =>
      exact Or.inl ⟨bind_eq_none (by rw [someBlanks_cons, hc]; rfl),
        bind_eq_none (by rw [List.cons_append, someBlanks_cons, hc]; rfl)⟩
    | true =>
      obtain ⟨tail', hstop', heq⟩ := hstop.trimStart_append code
      have hcode : someBlanks (c :: code) = some ((), trimStart code) := by
        rw [someBlanks_cons, hc]
        rfl
      have hboth : someBlanks (c :: code ++ tail) = some ((), trimStart code ++ tail') := by
        rw [List.cons_append, someBlanks_cons, hc, heq]
        rfl
      rw [bind_eq_of_some hcode, bind_eq_of_some hboth]
      exact hr (trimStart code) tail' hstop'

theorem steady_keyword {α : Type} {t : String} {r : Reader α} (ht : isSolid t.toList = true)
    (hr : SteadyBeforeStop r) (hnil : r [] = none) : SteadyBeforeStop (keyword t >>= fun _ => r) := by
  rw [keyword, bind_assoc]
  exact .bind (steady_literal ht) fun _ => steady_someBlanks hr hnil

theorem steady_statement {kind : String} (hkind : isSolid kind.toList = true) :
    SteadyBeforeStop (statement kind) :=
  steady_keyword hkind
    (.word (passes_of_isNameChar fun _ => isNameChar_of_isNameStart) (passes_of_isNameChar fun _ => id)) rfl

theorem steady_definition : SteadyBeforeStop definition := steady_keyword (by decide) steady_functionName rfl

theorem steady_instanceOf : SteadyBeforeStop instanceOf :=
  steady_keyword (by decide)
    (.bind steady_typeName fun _ => .bind (steady_literal (by decide)) fun _ =>
      steady_someBlanks (.bind steady_typeName fun _ => .pure _) rfl) rfl

theorem steady_binding : SteadyBeforeStop binding :=
  steady_keyword (by decide)
    (.bind (.span1 (passes_of_isNameChar fun _ => id)) fun _ => .bind steady_blanks fun _ =>
      .bind (steady_literal (by decide)) fun _ => .pure _) rfl

theorem needs_colon_instanceOf : Needs ':' instanceOf := by
  have hkeyword : Shortens (keyword "instance") := .bind .literal fun _ => .bind .word fun _ => .pure _
  exact .bind hkeyword fun _ => .bind .word fun _ => .literal (by decide) _

end Names

/-! ### Headers that end in a brace -/

section Braces

variable {α β : Type} {r s : Reader α} {f : α → Reader β}

/-- A brace is ahead in the code, and none behind it. -/
def BraceAhead (code tail : List Char) : Prop := '{' ∈ code ∧ '{' ∉ tail

theorem passes_of_not_brace {p : Char → Bool} (h : p '{' = false) : Passes BraceAhead p where
  step c code tail hc hahead := by
    refine ⟨(List.mem_cons.mp hahead.1).resolve_left ?_, hahead.2⟩
    rintro rfl
    rw [h] at hc
    cases hc
  stop c tail hahead := by cases hahead.1

theorem ahead_literal {t : String} (h : '{' ∉ t.toList) : Steady BraceAhead (literal t) := by
  refine .literal fun c hc => passes_of_not_brace (beq_eq_false_iff_ne.mpr ?_)
  rintro rfl
  exact h hc

theorem ahead_blanks : Steady BraceAhead blanks := .bind (.span (passes_of_not_brace (by decide))) fun _ => .pure _

theorem ahead_someBlanks : Steady BraceAhead someBlanks :=
  .bind (.span1 (passes_of_not_brace (by decide))) fun _ => .pure _

theorem ahead_keyword {t : String} (h : '{' ∉ t.toList) : Steady BraceAhead (keyword t) :=
  .bind (ahead_literal h) fun _ => ahead_someBlanks

theorem ahead_typeName : Steady BraceAhead typeName :=
  .word (passes_of_not_brace (by decide)) (passes_of_not_brace (by decide))

theorem ahead_functionName : Steady BraceAhead functionName :=
  .word (passes_of_not_brace (by decide)) (passes_of_not_brace (by decide))

theorem ahead_typeParam : Steady BraceAhead typeParam :=
  .bind (.one (passes_of_not_brace (by decide))) fun _ => .bind (ahead_literal (by decide)) fun _ =>
    .bind ahead_someBlanks fun _ => .pure _

theorem ahead_parents : Steady BraceAhead parents :=
  .bind (ahead_literal (by decide)) fun _ => .bind (.span (passes_of_not_brace (by decide))) fun _ =>
    .ite (.pure _) .failure

/-- What stands behind code with a brace ahead makes no difference, unless it has a brace too. -/
def Closing (r : Reader α) : Prop := ∀ code tail, BraceAhead code tail → r.read? (code ++ tail) = r.read? code

theorem Closing.failure : Closing (failure : Reader α) := fun _ _ _ => rfl

theorem Closing.ite {c : Prop} [Decidable c] (hr : Closing r) (hs : Closing s) : Closing (if c then r else s) := by
  split
  · exact hr
  · exact hs

theorem Closing.bind (hr : Steady BraceAhead r) (hf : ∀ a, Closing (f a)) : Closing (r >>= f) := by
  intro code tail hahead
  rcases hr code tail hahead with ⟨hnone, hboth⟩ | ⟨a, rest, tail', hrest, hsome, hboth⟩
  · rw [Reader.read?, Reader.read?, bind_eq_none hnone, bind_eq_none hboth]
  · rw [Reader.read?, Reader.read?, bind_eq_of_some hsome, bind_eq_of_some hboth]
    exact hf a rest tail' hrest

theorem Closing.map (hr : Closing r) (g : α → β) : Closing (r >>= fun a => pure (g a)) := by
  have hread (cs : List Char) : Reader.read? (r >>= fun a => pure (g a)) cs = (r.read? cs).map g := by
    cases hr : r cs with
    | none => simp only [Reader.read?, bind_eq_none hr, hr, Option.map_none]
    | some read =>
      obtain ⟨a, rest⟩ := read
      simp only [Reader.read?, bind_eq_of_some hr, hr]
      rfl
  intro code tail hahead
  rw [hread, hread, hr code tail hahead]

theorem Closing.orElse (hr : Closing r) (hs : Closing s) : Closing (orElse r s) := by
  have hread (cs : List Char) : (Reader.orElse r s).read? cs = (r.read? cs).or (s.read? cs) := by
    simp only [Reader.read?, Reader.orElse]
    cases r cs <;> rfl
  intro code tail hahead
  rw [hread, hread, hr code tail hahead, hs code tail hahead]

theorem read?_literal_brace (b : β) (cs : List Char) :
    Reader.read? (literal "\x7b" >>= fun _ => pure b) cs = if cs.head? = some '{' then some b else none := by
  cases cs with
  | nil => rfl
  | cons c rest =>
    by_cases hc : c = '{'
    · subst hc
      rfl
    · have hnone : literal "\x7b" (c :: rest) = none := by simp [literal, dropLead?, Ne.symm hc]
      rw [Reader.read?, bind_eq_none hnone]
      simp [hc]

theorem closing_literal_brace (b : β) : Closing (literal "\x7b" >>= fun _ => pure b) := by
  intro code tail hahead
  obtain ⟨c, rest, rfl⟩ := List.exists_cons_of_ne_nil (List.ne_nil_of_mem hahead.1)
  rw [read?_literal_brace, read?_literal_brace]
  rfl

theorem closing_classTail : Closing classTail :=
  .bind ahead_blanks fun _ => .bind (.maybe ahead_parents) fun _ =>
    .bind ahead_blanks fun _ => closing_literal_brace _

theorem closing_className : Closing className := .bind ahead_typeName fun _ => closing_classTail.map _

theorem closing_gluedClassName : Closing gluedClassName := by
  refine .bind ahead_typeName fun word => .ite ?_ .failure
  -- what was read too far is put back in front of the code
  intro code tail hahead
  have hback := (closing_classTail.map fun list => (word.take (word.length - "extends".toList.length), list))
    ("extends".toList ++ code) tail ⟨List.mem_append_right _ hahead.1, hahead.2⟩
  rw [List.append_assoc] at hback
  exact hback

theorem closing_typeClass : Closing typeClass :=
  .bind (ahead_keyword (by decide)) fun _ => .bind (.maybe ahead_typeParam) fun _ =>
    (closing_className.orElse closing_gluedClassName).map _

theorem closing_attributes : Closing attributes :=
  .bind (ahead_keyword (by decide)) fun _ => .bind (.maybe ahead_typeParam) fun _ =>
    .bind (.word (passes_of_not_brace (by decide)) (passes_of_not_brace (by decide))) fun _ => closing_literal_brace _

theorem closing_proof : Closing proof := by
  refine .bind (ahead_literal (by decide)) fun _ => .bind ahead_blanks fun _ => ?_
  have hbrace := closing_literal_brace ()
  rwa [bind_pure_unit] at hbrace

/-! A text between two marks may hold braces, and the closing mark may be found behind the code. Then no brace is left
that the header could end in. -/

/-- The reader takes a text that `P` allows, with the marks `o` and `c` around it. -/
def ReadsBetween (o c : Char) (P : List Char → Prop) (r : Reader (List Char)) : Prop :=
  ∀ cs a rest, r cs = some (a, rest) ↔ P a ∧ cs = o :: (a ++ c :: rest)

theorem readsBetween_between (o c : Char) : ReadsBetween o c (c ∉ ·) (between o c) := fun _ _ _ => between_eq_some

theorem readsBetween_typeParams : ReadsBetween '[' ']' (fun a => a ≠ [] ∧ ']' ∉ a) typeParams := by
  intro cs a rest
  constructor
  · intro h
    obtain ⟨⟨list, behind⟩, hbetween, hlist⟩ := Option.bind_eq_some_iff.mp h
    obtain ⟨hclose, hcs⟩ := between_eq_some.mp hbetween
    cases list with
    | nil => cases hlist
    | cons d list =>
      cases hlist
      exact ⟨⟨List.cons_ne_nil _ _, hclose⟩, hcs⟩
  · rintro ⟨⟨hne, hclose⟩, hcs⟩
    rw [typeParams, bind_eq_of_some (between_eq_some.mpr ⟨hclose, hcs⟩)]
    cases a with
    | nil => exact absurd rfl hne
    | cons d a => rfl

theorem ReadsBetween.append {o c : Char} {P : List Char → Prop} {r : Reader (List Char)} (h : ReadsBetween o c P r)
    {code a rest : List Char} (hread : r code = some (a, rest)) (tail : List Char) :
    r (code ++ tail) = some (a, rest ++ tail) := by
  obtain ⟨ha, rfl⟩ := (h code a rest).mp hread
  exact (h _ _ _).mpr ⟨ha, by simp⟩

/-- If the code alone is refused, the closing mark stands behind it. -/
theorem ReadsBetween.beyond {o c : Char} {P : List Char → Prop} {r : Reader (List Char)} (h : ReadsBetween o c P r)
    {code tail a rest : List Char} (hne : code ≠ []) (hcode : r code = none)
    (hread : r (code ++ tail) = some (a, rest)) : code.head? = some o ∧ rest <:+ tail := by
  obtain ⟨ha, heq⟩ := (h _ a rest).mp hread
  have hhead : code.head? = some o := by
    have := congrArg List.head? heq
    rwa [List.head?_append_of_ne_nil _ hne] at this
  refine ⟨hhead, ?_⟩
  have hrest : rest <:+ code ++ tail := ⟨o :: (a ++ [c]), by rw [heq]; simp⟩
  refine (List.suffix_or_suffix_of_suffix hrest (List.suffix_append code tail)).resolve_right ?_
  -- otherwise both marks would stand in the code
  rintro ⟨front, rfl⟩
  have : code = o :: (a ++ c :: front) := by
    rw [← List.append_cancel_right_eq]
    rw [heq]
    simp
  rw [(h code a front).mpr ⟨ha, this⟩] at hcode
  cases hcode

/-- Whether a brace comes next, behind blanks. -/
def opens (cs : List Char) : Bool := (trimStart cs).head? == some '{'

theorem opens_append {tail : List Char} (h : '{' ∉ tail) (cs : List Char) : opens (cs ++ tail) = opens cs := by
  rcases allBlank_or_exists cs with hcs | ⟨c, hmem, hc⟩
  · have htail : (trimStart tail).head? ≠ some '{' := fun hhead =>
      h ((List.dropWhile_sublist _).subset (List.mem_of_head? hhead))
    simpa [opens, trimStart_append_of_allBlank hcs, trimStart_of_allBlank hcs] using htail
  · obtain ⟨first, rest, hstart⟩ := List.exists_cons_of_ne_nil (List.ne_nil_of_mem (mem_trimStart hc hmem))
    rw [opens, opens, trimStart_append_of_mem hc hmem, hstart]
    rfl

theorem read?_brace (b : β) (cs : List Char) :
    Reader.read? (blanks >>= fun _ => literal "\x7b" >>= fun _ => pure b) cs = if opens cs then some b else none := by
  have hblanks : blanks cs = some ((), trimStart cs) := rfl
  rw [Reader.read?, bind_eq_of_some hblanks]
  refine (read?_literal_brace b (trimStart cs)).trans ?_
  simp only [opens, beq_iff_eq]

theorem closing_maybe_between {o c : Char} {P : List Char → Prop} {r : Reader (List Char)} (h : ReadsBetween o c P r)
    (hblank : isBlank o = false) (hbrace : o ≠ '{') (g : Option (List Char) → β) :
    Closing (maybe r >>= fun a => blanks >>= fun _ => literal "\x7b" >>= fun _ => pure (g a)) := by
  -- with or without a text between the marks, the header ends in the brace that comes next
  have hsome {cs rest : List Char} {a : List Char} (hread : r cs = some (a, rest)) :
      Reader.read? (maybe r >>= fun a => blanks >>= fun _ => literal "\x7b" >>= fun _ => pure (g a)) cs =
        if opens rest then some (g (some a)) else none := by
    have hmaybe : maybe r cs = some (some a, rest) := by simp only [maybe, hread]
    rw [← read?_brace, Reader.read?, bind_eq_of_some hmaybe]
    rfl
  have hnone {cs : List Char} (hread : r cs = none) :
      Reader.read? (maybe r >>= fun a => blanks >>= fun _ => literal "\x7b" >>= fun _ => pure (g a)) cs =
        if opens cs then some (g none) else none := by
    have hmaybe : maybe r cs = some (none, cs) := by simp only [maybe, hread]
    rw [← read?_brace, Reader.read?, bind_eq_of_some hmaybe]
    rfl
  intro code tail hahead
  obtain ⟨hcode, htail⟩ := hahead
  have hne : code ≠ [] := List.ne_nil_of_mem hcode
  cases hread : r code with
  | some read =>
    obtain ⟨a, rest⟩ := read
    rw [hsome hread, hsome (h.append hread tail), opens_append htail]
  | none =>
    cases hboth : r (code ++ tail) with
    | none => rw [hnone hread, hnone hboth, opens_append htail]
    | some read =>
      obtain ⟨a, rest⟩ := read
      obtain ⟨hhead, hrest⟩ := h.beyond hne hread hboth
      obtain ⟨code', rfl⟩ := List.head?_eq_some_iff.mp hhead
      have hrest' : opens rest = false := opens_append (fun hmem => htail (hrest.subset hmem)) []
      have hcode' : opens (o :: code') = false := by simp [opens, trimStart, hblank, hbrace]
      rw [hsome hboth, hnone hread, hrest', hcode']
      rfl

theorem closing_typeDeclaration {kind : String} (hkind : '{' ∉ kind.toList) : Closing (typeDeclaration kind) :=
  .bind (ahead_keyword hkind) fun _ => .bind ahead_typeName fun _ =>
    closing_maybe_between readsBetween_typeParams (by decide) (by decide) _

theorem closing_classMember : Closing classMember :=
  .bind ahead_functionName fun _ => .bind ahead_blanks fun _ =>
    closing_maybe_between (readsBetween_between '(' ')') (by decide) (by decide) _

theorem shortens_blanks : Shortens blanks := .bind .span fun _ => .pure _

theorem needs_brace_classMember : Needs '{' classMember := by
  have hbetween : Shortens (between '(' ')') := .bind .one fun _ => .bind .span fun _ => .bind .one fun _ => .pure _
  exact .bind .word fun _ => .bind shortens_blanks fun _ => .bind (.maybe hbetween) fun _ =>
    .bind shortens_blanks fun _ => .literal (by decide) _

end Braces

/-! ### Remarks behind a header -/

section Remark

variable {α : Type} {r : Reader α}

/-- A remark behind the code makes no difference: neither a comment without braces nor blanks. -/
def IgnoresRemark (r : Reader α) : Prop :=
  ∀ code tail, Stops tail → '{' ∉ tail → r.read? (code ++ tail) = r.read? code

theorem ignoresRemark_of_steady (h : SteadyBeforeStop r) : IgnoresRemark r :=
  fun _ _ hstop _ => h.read?_append hstop

theorem Closing.read?_append (h : Closing r) (hneeds : Needs '{' r) {tail : List Char} (htail : '{' ∉ tail)
    (code : List Char) : r.read? (code ++ tail) = r.read? code := by
  by_cases hcode : '{' ∈ code
  · exact h code tail ⟨hcode, htail⟩
  · have hboth : '{' ∉ code ++ tail := fun hmem => (List.mem_append.mp hmem).elim hcode htail
    rw [Reader.read?, Reader.read?, hneeds code hcode, hneeds _ hboth]

theorem ignoresRemark_classMember : IgnoresRemark classMember :=
  fun code _ _ htail => closing_classMember.read?_append needs_brace_classMember htail code

theorem IgnoresRemark.read?_trim (h : IgnoresRemark r) (cs : List Char) :
    r.read? (trim cs) = r.read? (trimStart cs) := by
  obtain ⟨blanks, hblanks, hend⟩ := exists_trimEnd_append (trimStart cs)
  have hbrace : '{' ∉ blanks := fun hmem => absurd (List.all_eq_true.mp hblanks '{' hmem) (by decide)
  rw [trim, ← h (trimEnd (trimStart cs)) blanks (stops_of_allBlank hblanks) hbrace, ← hend]

theorem IgnoresRemark.read?_trim_append (h : IgnoresRemark r) {tail : List Char} (hstop : Stops tail)
    (htail : '{' ∉ tail) (code : List Char) : r.read? (trim (code ++ tail)) = r.read? (trim code) := by
  rw [h.read?_trim, h.read?_trim]
  rcases allBlank_or_exists code with hcode | ⟨c, hmem, hc⟩
  · have hrest : '{' ∉ trimStart tail := fun hmem => htail ((List.dropWhile_sublist _).subset hmem)
    rw [trimStart_append_of_allBlank hcode, trimStart_of_allBlank hcode]
    exact h [] (trimStart tail) hstop.trimStart hrest
  · rw [trimStart_append_of_mem hc hmem, h _ tail hstop htail]

/-- The reader refuses every text with `c` in it. -/
def Refuses (c : Char) (r : Reader α) : Prop := ∀ code note, r (code ++ c :: note) = none

theorem Refuses.bind {β : Type} {c : Char} {f : α → Reader β} (hr : Steady (fun _ tail => tail.head? = some c) r)
    (hf : ∀ a, Refuses c (f a)) : Refuses c (r >>= f) := by
  intro code note
  rcases hr code (c :: note) rfl with ⟨-, hnone⟩ | ⟨a, rest, tail', htail, -, hsome⟩
  · exact bind_eq_none hnone
  · obtain ⟨note', rfl⟩ := List.head?_eq_some_iff.mp htail
    rw [bind_eq_of_some hsome]
    exact hf a rest note'

theorem Refuses.not_mem {c : Char} (h : Refuses c r) {cs : List Char} {a : α} (hread : r.read? cs = some a) :
    c ∉ cs := by
  intro hmem
  obtain ⟨code, note, rfl⟩ := List.append_of_mem hmem
  rw [Reader.read?, h] at hread
  cases hread

theorem passes_of_ne {p : Char → Bool} {c : Char} (h : p c = false) :
    Passes (fun _ tail => tail.head? = some c) p where
  step _ _ _ _ := id
  stop d tail hhead := by
    cases hhead
    exact h

/-- A field of a class is made of names, blanks and a few marks. -/
theorem refuses_classField {c : Char} (hname : isNameChar c = false) (hblank : isBlank c = false)
    (hmark : c ∉ [':', '[', ']', ',']) : Refuses c classField := by
  simp only [List.mem_cons, not_or] at hmark
  obtain ⟨hcolon, hopen, hclose, hcomma, -⟩ := hmark
  have hstart : isLowerStart c = false := Bool.eq_false_iff.mpr fun h => by
    rw [isNameChar_of_isLowerStart h] at hname
    cases hname
  have hlower : isLowerChar c = false := Bool.eq_false_iff.mpr fun h => by
    rw [isNameChar_of_isLowerChar h] at hname
    cases hname
  have hblanks : Steady (fun _ tail => tail.head? = some c) blanks :=
    .bind (.span (passes_of_ne hblank)) fun _ => .pure _
  have hliteral : Steady (fun _ tail => tail.head? = some c) (literal ":") :=
    .literal fun d hd => passes_of_ne (by obtain rfl := List.mem_singleton.mp hd; exact beq_eq_false_iff_ne.mpr hcolon)
  refine .bind (.word (passes_of_ne hstart) (passes_of_ne hlower)) fun _ => .bind hblanks fun _ =>
    .bind hliteral fun _ => .bind hblanks fun _ => .bind (.span1 (passes_of_ne ?_)) fun _ code note => bind_eq_none ?_
  · simp [hname, hblank, hopen, hclose, hcomma]
  · cases code <;> rfl

theorem read?_classField_trim_slash (code note : List Char) : classField.read? (trim (code ++ '/' :: note)) = none := by
  have htrim : trim (code ++ '/' :: note) = trimStart code ++ '/' :: trimEnd note := by
    rcases allBlank_or_exists code with hcode | ⟨c, hmem, hc⟩
    · rw [trim, trimStart_append_of_allBlank hcode, trimStart_of_allBlank hcode]
      exact trimEnd_append_cons (by decide) [] note
    · rw [trim, trimStart_append_of_mem hc hmem, trimEnd_append_cons (by decide)]
  rw [Reader.read?, htrim, refuses_classField (by decide) (by decide) (by decide)]
  rfl

end Remark

end AcornCatalog.Header
