import AcornCatalog.Proofs.Check.Comment
import AcornCatalog.Proofs.Text.Blank

/-! What a mask lies over. Code and comments take turns in a text: a comment begins with the first pair of marks that
opens one, and ends with its line or with the first mark that closes it. A mask shows the code, and of a comment the
line feeds only. Among what it shows, no pair of marks opens a comment. -/

namespace AcornCatalog.Check

open Text

/-! ### Marks -/

section Marks

variable {c : Char} {cs : List Char}

/-- No pair of marks in the text opens a comment. -/
structure Uncommented (cs : List Char) : Prop where
  line : occursIn ['/', '/'] cs = false
  block : occursIn ['/', '*'] cs = false

/-- The character and the one behind it open a comment. -/
def Opens (c : Char) (cs : List Char) : Prop := c = '/' ∧ (cs.head? = some '/' ∨ cs.head? = some '*')

theorem isPrefixOf_pair {a b : Char} : [a, b].isPrefixOf (c :: cs) = true ↔ c = a ∧ cs.head? = some b := by
  rw [List.isPrefixOf_iff_prefix, List.cons_prefix_cons, eq_comm, List.head?_eq_some_iff]
  exact and_congr_right fun _ => exists_congr fun _ => eq_comm

theorem not_occursIn_pair_cons {a b : Char} :
    occursIn [a, b] (c :: cs) = false ↔ ¬(c = a ∧ cs.head? = some b) ∧ occursIn [a, b] cs = false := by
  rw [occursIn, Bool.or_eq_false_iff, ← isPrefixOf_pair, Bool.not_eq_true]

theorem uncommented_cons_iff : Uncommented (c :: cs) ↔ ¬Opens c cs ∧ Uncommented cs := by
  constructor
  · rintro ⟨hline, hblock⟩
    obtain ⟨hline, hbehind⟩ := not_occursIn_pair_cons.mp hline
    obtain ⟨hblock, hbehind'⟩ := not_occursIn_pair_cons.mp hblock
    refine ⟨?_, hbehind, hbehind'⟩
    rintro ⟨hc, hnext | hnext⟩
    · exact hline ⟨hc, hnext⟩
    · exact hblock ⟨hc, hnext⟩
  · rintro ⟨hopens, hbehind⟩
    exact ⟨not_occursIn_pair_cons.mpr ⟨fun h => hopens ⟨h.1, Or.inl h.2⟩, hbehind.line⟩,
      not_occursIn_pair_cons.mpr ⟨fun h => hopens ⟨h.1, Or.inr h.2⟩, hbehind.block⟩⟩

theorem head?_append_cons (front : List Char) (c : Char) (more : List Char) :
    (front ++ c :: more).head? = (front ++ [c]).head? := by
  cases front <;> rfl

/-- Behind the code, all that matters of a comment is its first slash. -/
theorem opens_append_slash {code more : List Char} : Opens c (code ++ '/' :: more) ↔ Opens c (code ++ ['/']) := by
  rw [Opens, Opens, head?_append_cons]

theorem not_pair {a b : Char} (h : ∀ rest, c = a → cs = b :: rest → False) : ¬(c = a ∧ cs.head? = some b) := by
  rintro ⟨hc, hnext⟩
  obtain ⟨rest, hcs⟩ := List.head?_eq_some_iff.mp hnext
  exact h rest hc hcs

theorem mask_code_cons_of_not_opens (h : ¬Opens c cs) : mask .code (c :: cs) = emit c (mask .code cs) := by
  refine mask.eq_4 c cs ?_ ?_
  · rintro rest rfl rfl
    exact h ⟨rfl, Or.inl rfl⟩
  · rintro rest rfl rfl
    exact h ⟨rfl, Or.inr rfl⟩

/-- The texts that are their own masks are those that open no comment. -/
theorem mask_eq_self_iff : mask .code cs = (cs, .code) ↔ Uncommented cs := by
  refine ⟨fun h => ?_, fun h => mask_of_uncommented h.line h.block⟩
  induction cs with
  | nil => exact ⟨rfl, rfl⟩
  | cons c cs ih =>
    by_cases hopens : Opens c cs
    · obtain ⟨rfl, hnext | hnext⟩ := hopens
      · obtain ⟨rest, rfl⟩ := List.head?_eq_some_iff.mp hnext
        cases congrArg (·.1.head?) h
      · obtain ⟨rest, rfl⟩ := List.head?_eq_some_iff.mp hnext
        cases congrArg (·.1.head?) h
    · rw [mask_code_cons_of_not_opens hopens] at h
      have hshown := (List.cons.inj (congrArg Prod.fst h)).2
      have hmode : (mask .code cs).2 = .code := congrArg Prod.snd h
      exact uncommented_cons_iff.mpr ⟨hopens, ih (Prod.ext hshown hmode)⟩

theorem uncommented_mask (mode : Mode) (cs : List Char) : Uncommented (mask mode cs).1 :=
  mask_eq_self_iff.mp (mask_mask mode cs)

end Marks

/-! ### Comments -/

/-- What a mask shows of a comment. -/
def blanked (cs : List Char) : List Char := cs.map fun c => if c = '\n' then '\n' else ' '

/-- A comment with what follows it: up to the end of its line, or up to the first mark that closes it. -/
inductive IsComment : List Char → List Char → Prop where
  | line {note rest : List Char} (note_unbroken : '\n' ∉ note) (line_ends : ∀ c ∈ rest.head?, c = '\n') :
      IsComment ('/' :: '/' :: note) rest
  | block {note : List Char} (note_open : occursIn ['*', '/'] (note ++ ['*']) = false) (rest : List Char) :
      IsComment ('/' :: '*' :: note ++ ['*', '/']) rest

/-- A text, what it shows with its comments masked, and whether it ends within one that had to be closed. With the slash
    that begins a comment, the code in front opens none before it. -/
inductive Masks : List Char → List Char → Bool → Prop where
  | code {code : List Char} (plain : Uncommented code) : Masks code code false
  | comment {code note rest shown : List Char} {ended : Bool} (plain : Uncommented (code ++ ['/']))
      (comment : IsComment note rest) (behind : Masks rest shown ended) :
      Masks (code ++ note ++ rest) (code ++ blanked note ++ shown) ended
  | unclosed {code note : List Char} (plain : Uncommented (code ++ ['/']))
      (note_open : occursIn ['*', '/'] note = false) :
      Masks (code ++ '/' :: '*' :: note) (code ++ blanked ('/' :: '*' :: note)) true

/-! ### Comments are masked -/

section Masked

variable {c : Char} {code note rest cs shown : List Char} {ended : Bool}

theorem masked_code_append (h : Uncommented (code ++ ['/'])) (more : List Char) :
    maskComments (code ++ '/' :: more) = code ++ maskComments ('/' :: more) ∧
      endsInComment (code ++ '/' :: more) = endsInComment ('/' :: more) := by
  induction code with
  | nil => exact ⟨rfl, rfl⟩
  | cons c code ih =>
    obtain ⟨hopens, hcode⟩ := uncommented_cons_iff.mp h
    obtain ⟨hshown, hended⟩ := ih hcode
    rw [List.cons_append, maskComments, endsInComment,
      mask_code_cons_of_not_opens (opens_append_slash.not.mpr hopens)]
    exact ⟨congrArg (c :: ·) hshown, hended⟩

theorem blanked_of_not_mem (h : '\n' ∉ cs) : blanked cs = List.replicate cs.length ' ' := by
  rw [← List.map_const']
  refine List.map_congr_left fun c hc => if_neg ?_
  rintro rfl
  exact h hc

theorem mask_block_cons (h : ¬(c = '*' ∧ cs.head? = some '/')) :
    mask .blockComment (c :: cs) = emit (if c = '\n' then '\n' else ' ') (mask .blockComment cs) := by
  refine mask.eq_7 c cs ?_
  rintro rest rfl rfl
  exact h ⟨rfl, rfl⟩

theorem mask_block_unclosed (h : occursIn ['*', '/'] note = false) :
    mask .blockComment note = (blanked note, .blockComment) := by
  induction note with
  | nil => rfl
  | cons c note ih =>
    obtain ⟨hcloses, hnote⟩ := not_occursIn_pair_cons.mp h
    rw [mask_block_cons hcloses, ih hnote]
    rfl

theorem mask_block_closed (h : occursIn ['*', '/'] (note ++ ['*']) = false) (rest : List Char) :
    mask .blockComment (note ++ '*' :: '/' :: rest) =
      (blanked note ++ ' ' :: ' ' :: maskComments rest, (mask .code rest).2) := by
  induction note with
  | nil => rfl
  | cons c note ih =>
    rw [List.cons_append, not_occursIn_pair_cons, ← head?_append_cons note '*' ('/' :: rest)] at h
    rw [List.cons_append, mask_block_cons h.1, ih h.2]
    rfl

theorem IsComment.masked (h : IsComment note rest) :
    maskComments (note ++ rest) = blanked note ++ maskComments rest ∧
      endsInComment (note ++ rest) = endsInComment rest := by
  cases h with
  | @line note _ hnote hends =>
    have hmask : mask .code ('/' :: '/' :: note ++ rest) = emit ' ' (emit ' ' (mask .lineComment (note ++ rest))) := rfl
    have hblank : blanked ('/' :: '/' :: note) = ' ' :: ' ' :: List.replicate note.length ' ' := by
      rw [← blanked_of_not_mem hnote]
      rfl
    rw [hblank, maskComments, endsInComment, hmask]
    cases rest with
    | nil =>
      rw [List.append_nil, mask_lineComment hnote]
      exact ⟨(List.append_nil _).symm, rfl⟩
    | cons c rest =>
      obtain rfl := hends c rfl
      rw [mask_append_feed, mask_lineComment hnote, maskComments, endsInComment, mask_feed]
      exact ⟨rfl, rfl⟩
  | @block note hnote _ =>
    have hmask : mask .code ('/' :: '*' :: note ++ ['*', '/'] ++ rest) =
        emit ' ' (emit ' ' (mask .blockComment (note ++ '*' :: '/' :: rest))) := by
      simp [mask]
    have hblank : blanked ('/' :: '*' :: note ++ ['*', '/']) = ' ' :: ' ' :: blanked note ++ [' ', ' '] := by
      simp [blanked]
    rw [maskComments, endsInComment, hmask, mask_block_closed hnote, hblank]
    exact ⟨by simp [emit], rfl⟩

theorem IsComment.exists_cons (h : IsComment note rest) : ∃ more, note = '/' :: more := by
  cases h <;> exact ⟨_, rfl⟩

/-- There is one way only to mask the comments of a text. -/
theorem Masks.eq (h : Masks cs shown ended) : shown = maskComments cs ∧ ended = endsInComment cs := by
  induction h with
  | code hcode =>
    rw [maskComments, endsInComment, mask_eq_self_iff.mpr hcode]
    exact ⟨rfl, rfl⟩
  | @comment code note rest shown ended hcode hnote _ ih =>
    obtain ⟨hshown, hended⟩ := hnote.masked
    obtain ⟨more, rfl⟩ := hnote.exists_cons
    obtain ⟨hcode, hcode'⟩ := masked_code_append hcode (more ++ rest)
    rw [List.append_assoc, List.append_assoc, List.cons_append, hcode, hcode', ih.1, ih.2, ← hshown, ← hended]
    exact ⟨rfl, rfl⟩
  | @unclosed code note hcode hnote =>
    obtain ⟨hcode, hcode'⟩ := masked_code_append hcode ('*' :: note)
    rw [hcode, hcode', maskComments, endsInComment, mask, mask_block_unclosed hnote]
    exact ⟨rfl, rfl⟩

/-- A character that opens no comment is shown in front of what is shown behind it. -/
theorem Masks.cons (hopens : ¬Opens c cs) (h : Masks cs shown ended) : Masks (c :: cs) (c :: shown) ended := by
  cases h with
  | code hcode => exact .code (uncommented_cons_iff.mpr ⟨hopens, hcode⟩)
  | @comment code note rest shown _ hcode hnote hrest =>
    obtain ⟨more, rfl⟩ := hnote.exists_cons
    rw [List.append_assoc, List.cons_append, opens_append_slash] at hopens
    have hfront : Uncommented (c :: code ++ ['/']) := uncommented_cons_iff.mpr ⟨hopens, hcode⟩
    exact .comment hfront hnote hrest
  | @unclosed code note hcode hnote =>
    rw [opens_append_slash] at hopens
    have hfront : Uncommented (c :: code ++ ['/']) := uncommented_cons_iff.mpr ⟨hopens, hcode⟩
    exact .unclosed hfront hnote

/-- What a mask shows from within a comment on, or in code. -/
def MasksIn : Mode → List Char → List Char → Bool → Prop
  | .code, cs, shown, ended => Masks cs shown ended
  | .lineComment, cs, shown, ended =>
    ∃ note rest below, '\n' ∉ note ∧ (∀ c ∈ rest.head?, c = '\n') ∧ Masks rest below ended ∧
      cs = note ++ rest ∧ shown = blanked note ++ below
  | .blockComment, cs, shown, ended =>
    (occursIn ['*', '/'] cs = false ∧ shown = blanked cs ∧ ended = true) ∨
      ∃ note rest behind, occursIn ['*', '/'] (note ++ ['*']) = false ∧ Masks rest behind ended ∧
        cs = note ++ '*' :: '/' :: rest ∧ shown = blanked note ++ ' ' :: ' ' :: behind

theorem masksIn_mask (mode : Mode) (cs : List Char) :
    MasksIn mode cs (mask mode cs).1 ((mask mode cs).2 == .blockComment) := by
  -- a comment is put together only where it opens; until then its mode remembers the note and the code behind it
  have hstart : Uncommented ([] ++ ['/']) := ⟨rfl, rfl⟩
  have hnil : Masks [] [] false := .code ⟨rfl, rfl⟩
  fun_induction mask mode cs with
  | case1 mode =>
    cases mode with
    | code => exact hnil
    | lineComment => exact ⟨[], [], [], List.not_mem_nil, by simp, hnil, rfl, rfl⟩
    | blockComment => exact Or.inl ⟨rfl, rfl, rfl⟩
  | case2 cs ih =>
    obtain ⟨note, rest, below, hnote, hends, hbelow, rfl, hshown⟩ := ih
    have := Masks.comment hstart (.line hnote hends) hbelow
    simpa [MasksIn, emit, hshown, blanked] using this
  | case3 cs ih =>
    rcases ih with ⟨hnote, hshown, hended⟩ | ⟨note, rest, behind, hnote, hbehind, rfl, hshown⟩
    · have := Masks.unclosed hstart hnote
      simpa [MasksIn, emit, hshown, hended, blanked] using this
    · have := Masks.comment hstart (.block hnote rest) hbehind
      simpa [MasksIn, emit, hshown, blanked] using this
  | case4 c cs hline hblock ih =>
    refine Masks.cons ?_ ih
    rintro ⟨hc, hnext | hnext⟩
    · exact not_pair hline ⟨hc, hnext⟩
    · exact not_pair hblock ⟨hc, hnext⟩
  | case5 cs ih =>
    refine ⟨[], '\n' :: cs, _, List.not_mem_nil, by simp, Masks.cons ?_ ih, rfl, rfl⟩
    rintro ⟨hfeed, -⟩
    cases hfeed
  | case6 c cs hfeed ih =>
    obtain ⟨note, rest, below, hnote, hends, hbelow, rfl, hshown⟩ := ih
    refine ⟨c :: note, rest, below, by simp [Ne.symm hfeed, hnote], hends, hbelow, rfl, ?_⟩
    simp [emit, hshown, blanked, hfeed]
  | case7 cs ih => exact Or.inr ⟨[], cs, _, rfl, ih, rfl, rfl⟩
  | case8 c cs hclose ih =>
    rcases ih with ⟨hnote, hshown, hended⟩ | ⟨note, rest, behind, hnote, hbehind, rfl, hshown⟩
    · refine Or.inl ⟨not_occursIn_pair_cons.mpr ⟨not_pair hclose, hnote⟩, ?_, hended⟩
      simp [emit, hshown, blanked]
    · have hcloses := not_pair hclose
      -- the next character is the same with the closing mark cut off behind its star
      rw [head?_append_cons] at hcloses
      refine Or.inr ⟨c :: note, rest, behind, not_occursIn_pair_cons.mpr ⟨hcloses, hnote⟩, hbehind, rfl, ?_⟩
      simp [emit, hshown, blanked]

theorem masks_iff : Masks cs shown ended ↔ shown = maskComments cs ∧ ended = endsInComment cs := by
  refine ⟨Masks.eq, ?_⟩
  rintro ⟨rfl, rfl⟩
  exact masksIn_mask .code cs

end Masked

/-- A text and its mask have the same length. At every place the mask shows what the text has there, or a space, and a
    line feed just where the text has one. No comment is opened in a mask, so it is its own mask, with none open at its
    end. And what is masked are the comments: it shows the code between them and the line feeds in them. -/
theorem comments_masked_in_place (cs : List Char) :
    (maskComments cs).length = cs.length ∧
    (∀ (i : Nat) (c : Char), (maskComments cs)[i]? = some c → cs[i]? = some c ∨ c = ' ') ∧
    (∀ i : Nat, (maskComments cs)[i]? = some '\n' ↔ cs[i]? = some '\n') ∧
    (occursIn ['/', '/'] (maskComments cs) = false ∧ occursIn ['/', '*'] (maskComments cs) = false) ∧
    (maskComments (maskComments cs) = maskComments cs ∧ endsInComment (maskComments cs) = false) ∧
    ∀ shown ended, Masks cs shown ended ↔ shown = maskComments cs ∧ ended = endsInComment cs := by
  have hcovers := mask_covers .code cs
  have hplain := uncommented_mask .code cs
  refine ⟨hcovers.length_eq, fun i c hi => ?_, fun i => ⟨fun hi => ?_, fun hi => ?_⟩, ⟨hplain.line, hplain.block⟩,
    ⟨maskComments_maskComments cs, endsInComment_maskComments cs⟩, fun shown ended => masks_iff⟩
  · by_cases hc : c = ' '
    · exact Or.inr hc
    · exact Or.inl (getElem?_of_covers hcovers hi hc)
  · exact getElem?_of_covers hcovers hi (by decide)
  · obtain ⟨shown, hshown, hfeed | ⟨-, hfeed⟩⟩ := exists_getElem?_of_covers hcovers hi
    · rwa [hfeed] at hshown
    · exact absurd rfl hfeed

/-- The slash behind the first star closes nothing, and a star in front of a slash opens nothing. -/
example : maskComments "/*/ x */y*/ //*/\nz".toList = "        y*/     \nz".toList := by decide

end AcornCatalog.Check
