import AcornCatalog.Check.Comment
import AcornCatalog.Proofs.Text.Line
import Mathlib.Data.List.Forall2

/-! Masks of comments. A mask lies over its text character by character: it shows the character that is there, or a
space over one that is not a line feed. So masks have no more lines than their texts, and as a slash that is shown
never gets a second mark of a comment behind it, nothing is left to mask in a mask. A line feed belongs to no mark of a
comment, so what comes behind it is masked on its own, unless a comment is still open there. -/

namespace AcornCatalog.Check

open Text

attribute [grind =] mask

/-! ### Character by character -/

/-- What a mask may show over a character. -/
def Covers (shown c : Char) : Prop := shown = c ∨ shown = ' ' ∧ c ≠ '\n'

theorem covers_self (c : Char) : Covers c c := Or.inl rfl

theorem covers_space {c : Char} (h : c ≠ '\n') : Covers ' ' c := Or.inr ⟨rfl, h⟩

theorem mask_covers (mode : Mode) (cs : List Char) : List.Forall₂ Covers (mask mode cs).1 cs := by
  fun_induction mask mode cs with
  | case1 => exact .nil
  | case2 cs ih | case3 cs ih | case7 cs ih =>
    exact .cons (covers_space (by decide)) (.cons (covers_space (by decide)) ih)
  | case4 c cs _ _ ih => exact .cons (covers_self c) ih
  | case5 cs ih => exact .cons (covers_self _) ih
  | case6 c cs hfeed ih => exact .cons (covers_space hfeed) ih
  | case8 c cs _ ih =>
    refine .cons ?_ ih
    split
    · next hfeed => exact hfeed ▸ covers_self _
    · next hfeed => exact covers_space hfeed

theorem getElem?_of_covers {shown cs : List Char} (h : List.Forall₂ Covers shown cs) {i : Nat} {c : Char}
    (hi : shown[i]? = some c) (hc : c ≠ ' ') : cs[i]? = some c := by
  induction h generalizing i with
  | nil => simp at hi
  | @cons a d shown cs hfirst _ ih =>
    cases i with
    | zero =>
      cases hi
      rcases hfirst with rfl | ⟨rfl, -⟩
      · rfl
      · exact absurd rfl hc
    | succ i => exact ih hi

theorem exists_getElem?_of_covers {shown cs : List Char} (h : List.Forall₂ Covers shown cs) {i : Nat} {c : Char}
    (hi : cs[i]? = some c) : ∃ a, shown[i]? = some a ∧ Covers a c := by
  induction h generalizing i with
  | nil => simp at hi
  | @cons a d shown cs hfirst _ ih =>
    cases i with
    | zero =>
      cases hi
      exact ⟨a, rfl, hfirst⟩
    | succ i => exact ih hi

theorem length_consFirst (c : Char) (ls : List Line) : (consFirst c ls).length = max 1 ls.length := by
  cases ls with
  | nil => rfl
  | cons l ls => simp [consFirst]

/-- A mask breaks no line that its text does not break. -/
theorem length_lines_le_of_covers {shown cs : List Char} (h : List.Forall₂ Covers shown cs) :
    (lines shown).length ≤ (lines cs).length := by
  fun_induction lines cs generalizing shown with
  | case1 =>
    cases h
    exact Nat.le_refl _
  | case2 cs ih =>
    obtain ⟨first, shown, hfirst, hshown, rfl⟩ := List.forall₂_cons_right_iff.mp h
    obtain ⟨second, rest, hsecond, hrest, rfl⟩ := List.forall₂_cons_right_iff.mp hshown
    have hlines := Nat.succ_le_succ (ih hrest)
    obtain rfl : second = '\n' := hsecond.resolve_right fun hspace => hspace.2 rfl
    rcases hfirst with rfl | ⟨rfl, -⟩
    · exact hlines
    · exact hlines
  | case3 c cs hpair hbreak ih =>
    obtain ⟨first, rest, hfirst, hrest, rfl⟩ := List.forall₂_cons_right_iff.mp h
    have hlines := ih hrest
    rcases hfirst with rfl | ⟨rfl, -⟩
    · rw [lines.eq_3, if_pos hbreak]
      · exact Nat.succ_le_succ hlines
      · rintro _ hreturn rfl
        obtain ⟨second, cs, hsecond, -, rfl⟩ := List.forall₂_cons_left_iff.mp hrest
        rcases hsecond with rfl | ⟨hspace, -⟩
        · exact hpair cs hreturn rfl
        · cases hspace
    · rw [lines_cons rfl, length_consFirst, List.length_cons]
      omega
  | case4 c cs hpair hbreak ih =>
    obtain ⟨first, rest, hfirst, hrest, rfl⟩ := List.forall₂_cons_right_iff.mp h
    have hlines := ih hrest
    have hfree : isLineBreak first = false := by
      rcases hfirst with rfl | ⟨rfl, -⟩
      · exact Bool.eq_false_iff.mpr hbreak
      · rfl
    rw [lines_cons hfree, length_consFirst, length_consFirst]
    omega

/-! ### Masks of masks -/

theorem mask_code_cons {c : Char} (h : c ≠ '/') (cs : List Char) : mask .code (c :: cs) = emit c (mask .code cs) :=
  mask.eq_4 c cs (fun _ hc => absurd hc h) fun _ hc => absurd hc h

/-- A text that opens no comment is its own mask. -/
theorem mask_of_uncommented {cs : List Char} (hline : occursIn ['/', '/'] cs = false)
    (hblock : occursIn ['/', '*'] cs = false) : mask .code cs = (cs, .code) := by
  induction cs with
  | nil => rfl
  | cons c cs ih =>
    rw [occursIn, Bool.or_eq_false_iff] at hline hblock
    rw [mask.eq_4, ih hline.2 hblock.2]
    · rfl
    · rintro rest rfl rfl
      exact absurd hline.1 (by simp)
    · rintro rest rfl rfl
      exact absurd hblock.1 (by simp)

/-- A character that opens no comment opens none with a mask behind it. -/
theorem mask_code_cons_of_covers {c : Char} {shown cs : List Char} (hline : ∀ rest, c = '/' → cs = '/' :: rest → False)
    (hblock : ∀ rest, c = '/' → cs = '*' :: rest → False) (h : List.Forall₂ Covers shown cs) :
    mask .code (c :: shown) = emit c (mask .code shown) := by
  refine mask.eq_4 c shown ?_ ?_
  · rintro rest hc rfl
    cases h with
    | cons hfirst _ =>
      rcases hfirst with rfl | ⟨hspace, -⟩
      · exact hline _ hc rfl
      · cases hspace
  · rintro rest hc rfl
    cases h with
    | cons hfirst _ =>
      rcases hfirst with rfl | ⟨hspace, -⟩
      · exact hblock _ hc rfl
      · cases hspace

theorem mask_mask (mode : Mode) (cs : List Char) : mask .code (mask mode cs).1 = ((mask mode cs).1, .code) := by
  have space {shown : List Char} (h : mask .code shown = (shown, .code)) :
      mask .code (' ' :: shown) = (' ' :: shown, .code) := by
    rw [mask_code_cons (by decide), h]
    rfl
  fun_induction mask mode cs with
  | case1 => rfl
  | case2 cs ih | case3 cs ih | case7 cs ih => exact space (space ih)
  | case4 c cs hline hblock ih =>
    refine (mask_code_cons_of_covers hline hblock (mask_covers .code cs)).trans ?_
    rw [ih]
    rfl
  | case5 cs ih =>
    refine (mask_code_cons (by decide) _).trans ?_
    rw [ih]
    rfl
  | case6 c cs hfeed ih => exact space ih
  | case8 c cs _ ih =>
    refine (mask_code_cons (by split <;> decide) _).trans ?_
    rw [ih]
    rfl

theorem maskComments_maskComments (cs : List Char) : maskComments (maskComments cs) = maskComments cs := by
  rw [maskComments, maskComments, mask_mask]

theorem endsInComment_maskComments (cs : List Char) : endsInComment (maskComments cs) = false := by
  rw [endsInComment, maskComments, mask_mask]
  rfl

/-! ### Behind a line feed -/

/-- The mode in which the next line starts. -/
def Mode.afterFeed : Mode → Mode
  | .lineComment => .code
  | mode => mode

theorem mask_feed (mode : Mode) (cs : List Char) : mask mode ('\n' :: cs) = emit '\n' (mask mode.afterFeed cs) := by
  cases mode with
  | code => exact mask_code_cons (by decide) cs
  | lineComment => rfl
  | blockComment => exact mask.eq_7 '\n' cs fun _ hc => absurd hc (by decide)

theorem mask_append_feed (mode : Mode) (a b : List Char) :
    mask mode (a ++ '\n' :: b) =
      ((mask mode a).1 ++ '\n' :: (mask (mask mode a).2.afterFeed b).1, (mask (mask mode a).2.afterFeed b).2) := by
  -- no mark of a comment ends with a line feed, so none comes about where the texts meet
  have apart {c opening d : Char} {cs : List Char} (hd : d ≠ '\n') (h : ∀ rest, c = opening → cs = d :: rest → False) :
      ∀ rest, c = opening → cs ++ '\n' :: b = d :: rest → False := by
    intro rest hc hcs
    cases cs with
    | nil => exact hd (List.cons.inj hcs).1.symm
    | cons e cs => exact h cs hc (by rw [(List.cons.inj hcs).1])
  fun_induction mask mode a with
  | case1 mode => exact mask_feed mode b
  | case2 cs ih | case3 cs ih | case7 cs ih =>
    simp only [List.cons_append, mask, ih]
    rfl
  | case4 c cs hline hblock ih =>
    rw [List.cons_append, mask.eq_4 c _ (apart (by decide) hline) (apart (by decide) hblock), ih]
    rfl
  | case5 cs ih =>
    rw [List.cons_append, mask_feed, Mode.afterFeed, ih]
    rfl
  | case6 c cs hfeed ih =>
    rw [List.cons_append, mask, if_neg hfeed, ih]
    rfl
  | case8 c cs hclose ih =>
    rw [List.cons_append, mask.eq_7 c _ (apart (by decide) hclose), ih]
    rfl

theorem mask_lineComment {cs : List Char} (h : '\n' ∉ cs) :
    mask .lineComment cs = (List.replicate cs.length ' ', .lineComment) := by
  induction cs with
  | nil => rfl
  | cons c cs ih =>
    simp only [List.mem_cons, not_or] at h
    rw [mask, if_neg (Ne.symm h.1), ih h.2]
    rfl

section Feed

variable {a : List Char} (h : endsInComment a = false) (b : List Char)
include h

theorem mask_code_append_feed :
    mask .code (a ++ '\n' :: b) = (maskComments a ++ '\n' :: maskComments b, (mask .code b).2) := by
  have hafter : (mask .code a).2.afterFeed = .code := by
    cases hmode : (mask .code a).2 with
    | code | lineComment => rfl
    | blockComment => simp [endsInComment, hmode] at h
  rw [mask_append_feed, hafter]
  rfl

theorem maskComments_append_feed : maskComments (a ++ '\n' :: b) = maskComments a ++ '\n' :: maskComments b :=
  congrArg Prod.fst (mask_code_append_feed h b)

theorem endsInComment_append_feed : endsInComment (a ++ '\n' :: b) = endsInComment b :=
  congrArg (·.2 == Mode.blockComment) (mask_code_append_feed h b)

end Feed

end AcornCatalog.Check
