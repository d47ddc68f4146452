import AcornCatalog.Text.Occurrence
import Mathlib.Data.List.TakeWhile

/-! What readers read. A property of whatever a reader gives is shown along the way the reader is put together. And what
readers take: the text starts so. And what readers do not see: the text behind the point where they stop. -/

namespace AcornCatalog.Text.Reader

/-- Whatever the reader reads has the property. -/
def Reads {α : Type} (r : Reader α) (P : α → Prop) : Prop := ∀ cs a rest, r cs = some (a, rest) → P a

section Reads

variable {α β : Type} {P : α → Prop} {Q : β → Prop} {r s : Reader α} {f : α → Reader β}

theorem Reads.read? (h : Reads r P) {cs : List Char} {a : α} (hread : r.read? cs = some a) : P a := by
  obtain ⟨⟨b, rest⟩, hr, rfl⟩ := Option.map_eq_some_iff.mp hread
  exact h cs b rest hr

theorem Reads.pure {a : α} (h : P a) : Reads (Pure.pure a) P := by
  intro cs b rest heq
  cases heq
  exact h

theorem Reads.failure : Reads (failure : Reader α) P := by
  intro cs a rest heq
  cases heq

/-- A reader that goes on with what another has read may count on the property of that. -/
theorem Reads.andThen (hr : Reads r P) (hf : ∀ a, P a → Reads (f a) Q) : Reads (r >>= f) Q := by
  intro cs b rest heq
  change (r cs).bind (fun p => f p.1 p.2) = some (b, rest) at heq
  obtain ⟨⟨a, behind⟩, ha, hb⟩ := Option.bind_eq_some_iff.mp heq
  exact hf a (hr cs a behind ha) behind b rest hb

theorem Reads.bind (hf : ∀ a, Reads (f a) Q) : Reads (r >>= f) Q :=
  Reads.andThen (P := fun _ => True) (fun _ _ _ _ => trivial) fun a _ => hf a

theorem Reads.ite {c : Prop} [Decidable c] (hr : c → Reads r P) (hs : Reads s P) : Reads (if c then r else s) P := by
  split
  · exact hr ‹c›
  · exact hs

theorem Reads.orElse (hr : Reads r P) (hs : Reads s P) : Reads (orElse r s) P := by
  intro cs a rest heq
  rcases Option.or_eq_some_iff.mp heq with h | ⟨-, h⟩
  · exact hr cs a rest h
  · exact hs cs a rest h

end Reads

section Words

variable {first next p : Char → Bool}

theorem one_eq_some {c : Char} {cs rest : List Char} :
    one p cs = some (c, rest) ↔ p c = true ∧ cs = c :: rest := by
  cases cs with
  | nil => simp [one]
  | cons d ds =>
    simp only [one, Option.ite_none_right_eq_some, Option.some.injEq, Prod.mk.injEq, List.cons.injEq]
    constructor
    · rintro ⟨hd, rfl, rfl⟩
      exact ⟨hd, rfl, rfl⟩
    · rintro ⟨hc, rfl, rfl⟩
      exact ⟨hc, rfl, rfl⟩

theorem reads_one : Reads (one p) fun c => p c = true := fun _ _ _ heq => (one_eq_some.mp heq).1

theorem reads_span : Reads (span p) fun run => ∀ c ∈ run, p c = true := by
  intro cs run rest heq
  cases heq
  exact fun c hc => List.mem_takeWhile_imp hc

/-- All characters of a word are of a sort that takes in its first and those after it. -/
theorem reads_word (hfirst : ∀ c, first c = true → p c = true) (hnext : ∀ c, next c = true → p c = true) :
    Reads (word first next) fun w => ∀ c ∈ w, p c = true := by
  refine reads_one.andThen fun c hc => reads_span.andThen fun run hrun => .pure fun d hd => ?_
  rcases List.mem_cons.mp hd with rfl | hd
  · exact hfirst d hc
  · exact hnext d (hrun d hd)

theorem reads_word_head : Reads (word first next) fun w => w.head?.any first = true :=
  reads_one.andThen fun _ hc => .bind fun _ => .pure hc

end Words

/-! ### What is taken -/

theorem bind_eq_none {α β : Type} {r : Reader α} {f : α → Reader β} {cs : List Char} (h : r cs = none) :
    (r >>= f) cs = none := by
  change (r cs).bind _ = none
  rw [h]
  rfl

theorem bind_eq_of_some {α β : Type} {r : Reader α} {f : α → Reader β} {cs rest : List Char} {a : α}
    (h : r cs = some (a, rest)) : (r >>= f) cs = f a rest := by
  change (r cs).bind _ = _
  rw [h]
  rfl

theorem upTo_eq_some {c : Char} {cs a rest : List Char} : upTo c cs = some (a, rest) ↔ c ∉ a ∧ cs = a ++ c :: rest := by
  have hspan : span (· != c) cs = some (cs.takeWhile (· != c), cs.dropWhile (· != c)) := rfl
  rw [upTo, bind_eq_of_some hspan]
  constructor
  · intro h
    obtain ⟨⟨d, behind⟩, hone, heq⟩ := Option.bind_eq_some_iff.mp h
    cases heq
    obtain ⟨hd, hrest⟩ := one_eq_some.mp hone
    obtain rfl := beq_iff_eq.mp hd
    refine ⟨fun hmem => ?_, ?_⟩
    · simpa using List.mem_takeWhile_imp hmem
    · rw [← hrest, List.takeWhile_append_dropWhile]
  · rintro ⟨ha, rfl⟩
    have hpos : ∀ d ∈ a, (d != c) = true := fun d hd => by
      rw [bne_iff_ne]
      rintro rfl
      exact ha hd
    have htake : (a ++ c :: rest).takeWhile (· != c) = a := by
      rw [List.takeWhile_append_of_pos hpos]
      simp
    have hdrop : (a ++ c :: rest).dropWhile (· != c) = c :: rest := by
      rw [List.dropWhile_append_of_pos hpos]
      simp
    rw [htake, hdrop]
    exact bind_eq_of_some (one_eq_some.mpr ⟨beq_self_eq_true c, rfl⟩)

theorem between_eq_some {o c : Char} {cs a rest : List Char} :
    between o c cs = some (a, rest) ↔ c ∉ a ∧ cs = o :: (a ++ c :: rest) := by
  constructor
  · intro h
    obtain ⟨⟨d, behind⟩, hone, hupTo⟩ := Option.bind_eq_some_iff.mp h
    obtain ⟨hd, rfl⟩ := one_eq_some.mp hone
    obtain rfl := beq_iff_eq.mp hd
    obtain ⟨ha, rfl⟩ := upTo_eq_some.mp hupTo
    exact ⟨ha, rfl⟩
  · rintro ⟨ha, rfl⟩
    have hone : one (· == o) (o :: (a ++ c :: rest)) = some (o, a ++ c :: rest) :=
      one_eq_some.mpr ⟨beq_self_eq_true o, rfl⟩
    rw [between, bind_eq_of_some hone]
    exact upTo_eq_some.mpr ⟨ha, rfl⟩

theorem dropLead?_eq_some {lead cs rest : List Char} (h : dropLead? lead cs = some rest) : cs = lead ++ rest := by
  fun_induction dropLead? lead cs with
  | case1 cs =>
    cases h
    rfl
  | case2 => cases h
  | case3 p ps cs ih => rw [ih h, List.cons_append]
  | case4 => cases h

theorem dropLead?_append_self (lead cs : List Char) : dropLead? lead (lead ++ cs) = some cs := by
  induction lead with
  | nil => simp [dropLead?]
  | cons c lead ih => simp [dropLead?, ih]

theorem literal_eq_some {s : String} {u : Unit} {cs rest : List Char} :
    literal s cs = some (u, rest) ↔ cs = s.toList ++ rest := by
  constructor
  · intro h
    obtain ⟨left, hlead, heq⟩ := Option.map_eq_some_iff.mp h
    cases heq
    exact dropLead?_eq_some hlead
  · rintro rfl
    rw [literal, dropLead?_append_self]
    rfl

theorem wordEnd_eq_some_iff {u : Unit} {cs rest : List Char} :
    wordEnd cs = some (u, rest) ↔ cs.head?.any isWordChar = false ∧ rest = cs := by
  cases cs with
  | nil => simp [wordEnd, eq_comm]
  | cons c cs => cases hc : isWordChar c <;> simp [wordEnd, hc, eq_comm]

theorem wordEnd_eq_some {u : Unit} {cs rest : List Char} (h : wordEnd cs = some (u, rest)) : rest = cs :=
  (wordEnd_eq_some_iff.mp h).2

theorem isSome_wordEnd (cs : List Char) : (wordEnd cs).isSome = !cs.head?.any isWordChar := by
  cases cs with
  | nil => rfl
  | cons c cs => cases hc : isWordChar c <;> simp [wordEnd, hc]

/-- Again and again the reader takes the text of what it reads. -/
theorem manyUpTo_eq_some {α : Type} {r : Reader α} {t : α → List Char} {P : α → Prop}
    (h : ∀ cs a rest, r cs = some (a, rest) → P a ∧ cs = t a ++ rest) {n : Nat} {cs rest : List Char} {as : List α}
    (hread : manyUpTo r n cs = some (as, rest)) : (∀ a ∈ as, P a) ∧ cs = as.flatMap t ++ rest := by
  induction n generalizing cs as with
  | zero =>
    cases hread
    exact ⟨fun a ha => absurd ha List.not_mem_nil, rfl⟩
  | succ n ih =>
    rw [manyUpTo] at hread
    split at hread
    · rename_i a behind hr
      obtain ⟨⟨more, rest'⟩, hmore, heq⟩ := Option.map_eq_some_iff.mp hread
      cases heq
      obtain ⟨ha, rfl⟩ := h cs a behind hr
      obtain ⟨hall, rfl⟩ := ih hmore
      exact ⟨List.forall_mem_cons.mpr ⟨ha, hall⟩, by simp⟩
    · cases hread
      exact ⟨fun a ha => absurd ha List.not_mem_nil, rfl⟩

theorem manyUpTo_of_none {α : Type} {r : Reader α} {cs : List Char} (h : r cs = none) (n : Nat) :
    manyUpTo r n cs = some ([], cs) := by
  cases n with
  | zero => rfl
  | succ n => simp [manyUpTo, h]

theorem many_of_none {α : Type} {r : Reader α} {cs : List Char} (h : r cs = none) : many r cs = some ([], cs) :=
  manyUpTo_of_none h _

/-- A word is read whole where no more of its kind follows. -/
theorem word_cons_append {first next : Char → Bool} {c : Char} {run rest : List Char} (hc : first c = true)
    (hrun : ∀ d ∈ run, next d = true) (hrest : ∀ d ∈ rest.head?, next d = false) :
    word first next (c :: (run ++ rest)) = some (c :: run, rest) := by
  have hstop : rest.takeWhile next = [] ∧ rest.dropWhile next = rest := by
    cases rest with
    | nil => exact ⟨rfl, rfl⟩
    | cons d rest => simp [hrest d rfl]
  have hspan : span next (run ++ rest) = some (run, rest) := by
    rw [span, List.takeWhile_append_of_pos hrun, List.dropWhile_append_of_pos hrun, hstop.1, hstop.2, List.append_nil]
  rw [word, bind_eq_of_some (one_eq_some.mpr ⟨hc, rfl⟩), bind_eq_of_some hspan]
  rfl

/-! ### What stands behind -/

section Steady

variable {α β : Type} {I : List Char → List Char → Prop} {r s : Reader α} {f : α → Reader β} {p : Char → Bool}

/-- What stands behind the code is nothing to the reader. It reads the same as from the code alone and leaves as much of
    it, as long as `I` holds of the code and what stands behind; then `I` holds of what is left. -/
def Steady (I : List Char → List Char → Prop) (r : Reader α) : Prop :=
  ∀ code tail, I code tail →
    (r code = none ∧ r (code ++ tail) = none) ∨
      ∃ a rest tail', I rest tail' ∧ r code = some (a, rest) ∧ r (code ++ tail) = some (a, rest ++ tail')

theorem Steady.read?_append (h : Steady I r) {code tail : List Char} (hI : I code tail) :
    r.read? (code ++ tail) = r.read? code := by
  rcases h code tail hI with ⟨hcode, hboth⟩ | ⟨a, rest, tail', -, hcode, hboth⟩ <;>
    simp only [Reader.read?, hcode, hboth, Option.map_none, Option.map_some]

theorem Steady.pure (a : α) : Steady I (Pure.pure a) :=
  fun code tail hI => Or.inr ⟨a, code, tail, hI, rfl, rfl⟩

theorem Steady.failure : Steady I (failure : Reader α) := fun _ _ _ => Or.inl ⟨rfl, rfl⟩

theorem Steady.bind (hr : Steady I r) (hf : ∀ a, Steady I (f a)) : Steady I (r >>= f) := by
  intro code tail hI
  rcases hr code tail hI with ⟨hcode, hboth⟩ | ⟨a, rest, tail', hrest, hcode, hboth⟩
  · exact Or.inl ⟨bind_eq_none hcode, bind_eq_none hboth⟩
  · rw [bind_eq_of_some hcode, bind_eq_of_some hboth]
    exact hf a rest tail' hrest

theorem Steady.ite {c : Prop} [Decidable c] (hr : Steady I r) (hs : Steady I s) :
    Steady I (if c then r else s) := by
  split
  · exact hr
  · exact hs

theorem Steady.maybe (hr : Steady I r) : Steady I (maybe r) := by
  intro code tail hI
  rcases hr code tail hI with ⟨hcode, hboth⟩ | ⟨a, rest, tail', hrest, hcode, hboth⟩
  · exact Or.inr ⟨none, code, tail, hI, by simp only [Reader.maybe, hcode], by simp only [Reader.maybe, hboth]⟩
  · exact Or.inr ⟨some a, rest, tail', hrest, by simp only [Reader.maybe, hcode], by simp only [Reader.maybe, hboth]⟩

/-- The characters in `p` are passed over without harm to `I`, and none comes first behind code that is used up. -/
structure Passes (I : List Char → List Char → Prop) (p : Char → Bool) : Prop where
  step : ∀ c code tail, p c = true → I (c :: code) tail → I code tail
  stop : ∀ c tail, I [] (c :: tail) → p c = false

theorem Steady.one (h : Passes I p) : Steady I (one p) := by
  intro code tail hI
  cases code with
  | nil =>
    refine Or.inl ⟨rfl, ?_⟩
    cases tail with
    | nil => rfl
    | cons c tail => simp [Reader.one, h.stop c tail hI]
  | cons c code =>
    cases hc : p c with
    | false => exact Or.inl ⟨by simp [Reader.one, hc], by simp [Reader.one, hc]⟩
    | true =>
      exact Or.inr ⟨c, code, tail, h.step c code tail hc hI, by simp [Reader.one, hc], by simp [Reader.one, hc]⟩

theorem Passes.dropWhile (h : Passes I p) {code tail : List Char} (hI : I code tail) :
    (code ++ tail).takeWhile p = code.takeWhile p ∧ (code ++ tail).dropWhile p = code.dropWhile p ++ tail ∧
      I (code.dropWhile p) tail := by
  induction code with
  | nil =>
    cases tail with
    | nil => exact ⟨rfl, rfl, hI⟩
    | cons c tail => exact ⟨by simp [h.stop c tail hI], by simp [h.stop c tail hI], hI⟩
  | cons c code ih =>
    cases hc : p c with
    | false => exact ⟨by simp [hc], by simp [hc], by simpa [hc] using hI⟩
    | true =>
      obtain ⟨htake, hdrop, hrest⟩ := ih (h.step c code tail hc hI)
      exact ⟨by simp [hc, htake], by simp [hc, hdrop], by simpa [hc] using hrest⟩

theorem Steady.span (h : Passes I p) : Steady I (span p) := by
  intro code tail hI
  obtain ⟨htake, hdrop, hrest⟩ := h.dropWhile hI
  exact Or.inr ⟨code.takeWhile p, code.dropWhile p, tail, hrest, rfl, by rw [Reader.span, htake, hdrop]⟩

theorem Steady.word {first next : Char → Bool} (hfirst : Passes I first) (hnext : Passes I next) :
    Steady I (word first next) :=
  .bind (.one hfirst) fun _ => .bind (.span hnext) fun _ => .pure _

theorem Steady.span1 (h : Passes I p) : Steady I (span1 p) := .word h h

theorem Steady.wordEnd (h : Passes I isWordChar) : Steady I wordEnd := by
  intro code tail hI
  cases code with
  | nil =>
    refine Or.inr ⟨(), [], tail, hI, rfl, ?_⟩
    cases tail with
    | nil => rfl
    | cons c tail => simp [Reader.wordEnd, h.stop c tail hI]
  | cons c code =>
    cases hc : isWordChar c with
    | true => exact Or.inl ⟨by simp [Reader.wordEnd, hc], by simp [Reader.wordEnd, hc]⟩
    | false => exact Or.inr ⟨(), c :: code, tail, hI, by simp [Reader.wordEnd, hc], by simp [Reader.wordEnd, hc]⟩

theorem dropLead?_append {lead : List Char} (h : ∀ c ∈ lead, Passes I (· == c)) {code tail : List Char}
    (hI : I code tail) :
    (dropLead? lead code = none ∧ dropLead? lead (code ++ tail) = none) ∨
      ∃ rest, I rest tail ∧ dropLead? lead code = some rest ∧ dropLead? lead (code ++ tail) = some (rest ++ tail) := by
  induction lead generalizing code with
  | nil => exact Or.inr ⟨code, hI, by simp [dropLead?], by simp [dropLead?]⟩
  | cons l lead ih =>
    have hl := h l (List.mem_cons_self ..)
    cases code with
    | nil =>
      refine Or.inl ⟨rfl, ?_⟩
      cases tail with
      | nil => rfl
      | cons c tail =>
        have hne : l ≠ c := by
          have hstop := hl.stop c tail hI
          rintro rfl
          simp at hstop
        simp [dropLead?, hne]
    | cons c code =>
      by_cases hc : l = c
      · subst hc
        have hrest := ih (fun c hc => h c (List.mem_cons_of_mem _ hc)) (hl.step l code tail (by simp) hI)
        simpa [dropLead?] using hrest
      · exact Or.inl ⟨by simp [dropLead?, hc], by simp [dropLead?, hc]⟩

theorem Steady.literal {t : String} (h : ∀ c ∈ t.toList, Passes I (· == c)) : Steady I (literal t) := by
  intro code tail hI
  rcases dropLead?_append h hI with ⟨hcode, hboth⟩ | ⟨rest, hrest, hcode, hboth⟩
  · exact Or.inl ⟨by simp [Reader.literal, hcode], by simp [Reader.literal, hboth]⟩
  · exact Or.inr ⟨(), rest, tail, hrest, by simp [Reader.literal, hcode], by simp [Reader.literal, hboth]⟩

end Steady

/-! ### What is left -/

section Shortens

variable {α β : Type} {r : Reader α} {f : α → Reader β} {p : Char → Bool}

/-- The reader takes from the front and leaves the rest as it is. -/
def Shortens (r : Reader α) : Prop := ∀ cs a rest, r cs = some (a, rest) → rest <:+ cs

theorem Shortens.pure (a : α) : Shortens (Pure.pure a) := by
  intro cs b rest h
  cases h
  exact List.suffix_refl _

theorem Shortens.bind (hr : Shortens r) (hf : ∀ a, Shortens (f a)) : Shortens (r >>= f) := by
  intro cs b rest h
  obtain ⟨⟨a, behind⟩, ha, hb⟩ := Option.bind_eq_some_iff.mp h
  exact (hf a behind b rest hb).trans (hr cs a behind ha)

theorem Shortens.one : Shortens (one p) := by
  intro cs c rest h
  obtain ⟨-, rfl⟩ := one_eq_some.mp h
  exact List.suffix_cons ..

theorem Shortens.span : Shortens (span p) := by
  intro cs a rest h
  cases h
  exact List.dropWhile_suffix _

theorem Shortens.word {first next : Char → Bool} : Shortens (word first next) :=
  .bind .one fun _ => .bind .span fun _ => .pure _

theorem Shortens.literal {t : String} : Shortens (literal t) := by
  intro cs a rest h
  obtain ⟨behind, hlead, heq⟩ := Option.map_eq_some_iff.mp h
  cases heq
  exact ⟨t.toList, (dropLead?_eq_some hlead).symm⟩

theorem Shortens.maybe (hr : Shortens r) : Shortens (maybe r) := by
  intro cs a rest h
  simp only [Reader.maybe] at h
  split at h
  · next b behind hread =>
    cases h
    exact hr cs b rest hread
  · cases h
    exact List.suffix_refl _

/-- The reader succeeds only where `c` stands somewhere in the text. -/
def Needs (c : Char) (r : Reader α) : Prop := ∀ cs, c ∉ cs → r cs = none

theorem Needs.bind {c : Char} (hr : Shortens r) (hf : ∀ a, Needs c (f a)) : Needs c (r >>= f) := by
  intro cs hc
  cases hread : r cs with
  | none => exact bind_eq_none hread
  | some read =>
    obtain ⟨a, rest⟩ := read
    rw [bind_eq_of_some hread]
    exact hf a rest fun hmem => hc ((hr cs a rest hread).subset hmem)

theorem Needs.literal {c : Char} {t : String} (ht : c ∈ t.toList) (f : Unit → Reader β) :
    Needs c (literal t >>= f) := by
  intro cs hc
  refine bind_eq_none ?_
  cases hlead : dropLead? t.toList cs with
  | none => simp [Reader.literal, hlead]
  | some rest =>
    rw [dropLead?_eq_some hlead] at hc
    exact absurd (List.mem_append_left _ ht) hc

end Shortens

/-! ### Again and again -/

section Many

variable {α : Type} {I : List Char → List Char → Prop} {r : Reader α} {cs rest : List Char} {a : α}

/-- The reader takes something wherever it succeeds. -/
def Advances (r : Reader α) : Prop := ∀ cs a rest, r cs = some (a, rest) → rest.length < cs.length

theorem Advances.bind {β : Type} {f : α → Reader β} (hr : Advances r) (hf : ∀ a, Shortens (f a)) :
    Advances (r >>= f) := by
  intro cs b rest h
  obtain ⟨⟨a, behind⟩, ha, hb⟩ := Option.bind_eq_some_iff.mp h
  exact Nat.lt_of_le_of_lt (hf a behind b rest hb).length_le (hr cs a behind ha)

theorem Advances.literal {t : String} (ht : t.toList ≠ []) : Advances (literal t) := by
  intro cs u rest h
  rw [literal_eq_some.mp h, List.length_append]
  have := List.length_pos_iff.mpr ht
  omega

theorem Advances.word {first next : Char → Bool} : Advances (word first next) := by
  refine .bind (fun cs c rest h => ?_) fun _ => .bind .span fun _ => .pure _
  obtain ⟨-, rfl⟩ := one_eq_some.mp h
  exact Nat.lt_succ_self _

/-- A text is never longer to read than it has characters. -/
theorem Advances.manyUpTo_eq (h : Advances r) {n m : Nat} (hn : cs.length ≤ n) (hm : cs.length ≤ m) :
    manyUpTo r n cs = manyUpTo r m cs := by
  induction n generalizing cs m with
  | zero =>
    have hnone : r cs = none := by
      cases hread : r cs with
      | none => rfl
      | some read =>
        have := h cs read.1 read.2 hread
        omega
    rw [manyUpTo_of_none hnone, manyUpTo_of_none hnone]
  | succ n ih =>
    cases hread : r cs with
    | none => rw [manyUpTo_of_none hread, manyUpTo_of_none hread]
    | some read =>
      obtain ⟨a, rest⟩ := read
      have hlength := h cs a rest hread
      cases m with
      | zero => omega
      | succ m => simp only [manyUpTo, hread, ih (m := m) (by omega : rest.length ≤ n) (by omega)]

theorem many_of_some (h : Advances r) (hread : r cs = some (a, rest)) :
    many r cs = (many r rest).map fun read => (a :: read.1, read.2) := by
  have hlength := h cs a rest hread
  obtain ⟨n, hn⟩ : ∃ n, cs.length = n + 1 := ⟨cs.length - 1, by omega⟩
  rw [many, hn]
  simp only [manyUpTo, hread]
  rw [many, h.manyUpTo_eq (by omega : rest.length ≤ n) (Nat.le_refl _)]

theorem Steady.manyUpTo (hr : Steady I r) (n : Nat) : Steady I (manyUpTo r n) := by
  induction n with
  | zero => exact fun code tail hI => Or.inr ⟨[], code, tail, hI, rfl, rfl⟩
  | succ n ih =>
    intro code tail hI
    rcases hr code tail hI with ⟨hcode, hboth⟩ | ⟨a, rest, tail', hrest, hcode, hboth⟩
    · exact Or.inr ⟨[], code, tail, hI, manyUpTo_of_none hcode _, manyUpTo_of_none hboth _⟩
    · simp only [Reader.manyUpTo, hcode, hboth]
      rcases ih rest tail' hrest with ⟨hcode, hboth⟩ | ⟨as, left, tail'', hleft, hcode, hboth⟩
      · exact Or.inl ⟨by rw [hcode]; rfl, by rw [hboth]; rfl⟩
      · exact Or.inr ⟨a :: as, left, tail'', hleft, by rw [hcode]; rfl, by rw [hboth]; rfl⟩

theorem Steady.many (hr : Steady I r) (h : Advances r) : Steady I (many r) := by
  intro code tail hI
  have hlength : code.length ≤ (code ++ tail).length := by simp
  have hmany : Reader.many r code = Reader.manyUpTo r (code ++ tail).length code :=
    h.manyUpTo_eq (Nat.le_refl _) hlength
  rw [hmany]
  exact hr.manyUpTo _ code tail hI

end Many

end AcornCatalog.Text.Reader
