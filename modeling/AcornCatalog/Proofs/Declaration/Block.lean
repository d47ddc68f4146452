import AcornCatalog.Declaration.Block
import AcornCatalog.Proofs.Check.Bracket
import Mathlib.Data.List.Forall2

/-! Blocks that close. In lines whose brackets are in order every brace opens a block that closes within the lines, and
lines put below do not change a block that closes. What is swept from lines piled on others is then what is swept from
each pile, as long as no step in the upper one looks below it. -/

namespace AcornCatalog

open Text

/-! ### Counting braces -/

/-- A line that ends inside a block has changed the depth by the braces it opens and closes. -/
theorem lineEnd_inside {depth left : Nat} {line : Line} (h : lineEnd depth line = .inside left) :
    left + line.count '}' = depth + line.count '{' := by
  induction line generalizing depth with
  | nil =>
    cases h
    rfl
  | cons c line ih =>
    -- behind the first character the line ends at the same depth, if the block has not closed by then
    have rest {n : Nat} (h : (lineEnd n line).shift = .inside left) : lineEnd n line = .inside left := by
      cases hend : lineEnd n line with
      | closes column => simp [hend, LineEnd.shift] at h
      | inside m => simpa [hend, LineEnd.shift] using h
    unfold lineEnd at h
    split at h
    · next hc =>
      subst hc
      have := ih (rest h)
      simp only [List.count_cons_self, List.count_cons, beq_iff_eq]
      simp only [Char.reduceEq, if_false]
      omega
    · next hopen =>
      split at h
      · next hc =>
        subst hc
        cases depth with
        | zero => cases h
        | succ depth =>
          have := ih (rest h)
          simp only [List.count_cons_self, List.count_cons, beq_iff_eq]
          simp only [Char.reduceEq, if_false]
          omega
      · next hclose => simpa [List.count_cons, hopen, hclose] using ih (rest h)

namespace Block

/-- A block that does not close has no more closing braces than are asked for by the opening ones. -/
theorem count_of_closeIn_eq_none {depth : Nat} {ls : List Line} (h : closeIn depth ls = none) :
    ls.flatten.count '}' ≤ ls.flatten.count '{' + depth := by
  induction ls generalizing depth with
  | nil => simp
  | cons line rest ih =>
    rw [closeIn] at h
    split at h
    · cases h
    · next left hline =>
      have hrest := ih (Option.map_eq_none_iff.mp h)
      have := lineEnd_inside hline
      simp only [List.flatten_cons, List.count_append]
      omega

/-- A block that closes does so in a line that is there, whatever stands below. -/
theorem closeIn_append {depth : Nat} {ls : List Line} {b : Block} (h : closeIn depth ls = some b) :
    b.height < ls.length ∧ ∀ more, closeIn depth (ls ++ more) = some b := by
  induction ls generalizing depth b with
  | nil => cases h
  | cons line rest ih =>
    rw [closeIn] at h
    split at h
    · next column hline =>
      cases h
      exact ⟨by simp, fun more => by rw [List.cons_append, closeIn, hline]⟩
    · next left hline =>
      obtain ⟨inner, hinner, rfl⟩ := Option.map_eq_some_iff.mp h
      obtain ⟨hheight, hmore⟩ := ih hinner
      exact ⟨by simpa using hheight, fun more => by rw [List.cons_append, closeIn, hline]; simp [hmore]⟩

theorem capture_append {ls : List Line} {column : Nat} {b : Block} (h : capture ls column = some b) :
    b.height < ls.length ∧ ∀ more, capture (ls ++ more) column = some b := by
  cases ls with
  | nil => cases h
  | cons line rest =>
    obtain ⟨inner, hinner, rfl⟩ := Option.map_eq_some_iff.mp h
    obtain ⟨hheight, hmore⟩ := closeIn_append hinner
    refine ⟨?_, fun more => ?_⟩
    · split <;> simpa using hheight
    · rw [List.cons_append, capture, ← List.cons_append, hmore]
      rfl

end Block

/-! ### Lines in which braces close -/

/-- Every opening brace in the lines has a block that closes within them. -/
def BracesClose (ls : List Line) : Prop :=
  ∀ l rest column, l :: rest <:+ ls → l[column]? = some '{' → ∃ b, Block.capture (l :: rest) (column + 1) = some b

theorem BracesClose.suffix {ls part : List Line} (h : BracesClose ls) (hpart : part <:+ ls) : BracesClose part :=
  fun l rest column hrest => h l rest column (hrest.trans hpart)

theorem bracesClose_of_checkBrackets {ls : List Line} (h : Check.checkBrackets ls = []) : BracesClose ls := by
  rintro line rest column ⟨before, rfl⟩ hbrace
  obtain ⟨hcolumn, hbrace⟩ := List.getElem?_eq_some_iff.mp hbrace
  have hline : line = line.take column ++ '{' :: line.drop (column + 1) := by
    rw [← hbrace, ← List.drop_eq_getElem_cons hcolumn, List.take_append_drop]
  rw [hline] at h
  have hcount := Check.count_behind_brace h
  refine Option.ne_none_iff_exists'.mp fun hnone => ?_
  -- a block that never closes would leave too few closing braces
  have := Block.count_of_closeIn_eq_none (Option.map_eq_none_iff.mp hnone)
  rw [List.flatten_cons] at this
  omega

theorem braceBalance_append (a b : List Char) : braceBalance (a ++ b) = braceBalance a + braceBalance b := by
  simp only [braceBalance, List.count_append]
  omega

/-! ### Sweeping -/

/-- What is read at a line keeps to `rest`, the lines below: it stays the same if more lines follow, and it uses no more
    lines than there are. -/
structure Confined {γ : Type} (used : γ → Nat) (read : List Line → γ) (rest : List Line) : Prop where
  append : ∀ more, read (rest ++ more) = read rest
  fits : used (read rest) ≤ rest.length

section Sweep

variable {α : Type} {step : Nat → Line → List Line → List α × Nat}

/-- Lines that are used up can be left out. -/
theorem sweep_drop (step : Nat → Line → List Line → List α × Nat) (number used : Nat) (ls : List Line) :
    sweep step number used ls = sweep step (number + used) 0 (ls.drop used) := by
  induction ls generalizing number used with
  | nil => simp [sweep]
  | cons line rest ih =>
    cases used with
    | zero => rfl
    | succ used =>
      rw [sweep, ih, List.drop_succ_cons, Nat.add_right_comm]
      rfl

/-- If every step in the upper lines keeps to them, the lower lines are swept as if they stood alone. -/
theorem sweep_append {upper lower : List Line}
    (h : ∀ number line rest, line :: rest <:+ upper → Confined (·.2) (step number line) rest) {number used : Nat}
    (hused : used ≤ upper.length) :
    sweep step number used (upper ++ lower) =
      sweep step number used upper ++ sweep step (number + upper.length) 0 lower := by
  induction upper generalizing number used with
  | nil =>
    obtain rfl : used = 0 := by simpa using hused
    rfl
  | cons line rest ih =>
    have ih {used : Nat} (hused : used ≤ rest.length) :
        sweep step (number + 1) used (rest ++ lower) =
          sweep step (number + 1) used rest ++ sweep step (number + (line :: rest).length) 0 lower := by
      rw [ih (fun n l ls hls => h n l ls (hls.trans (List.suffix_cons ..))) hused, List.length_cons, Nat.add_right_comm,
        Nat.add_assoc]
    cases used with
    | succ used => exact ih (Nat.le_of_succ_le_succ hused)
    | zero =>
      have hline := h number line rest (List.suffix_refl _)
      simp only [List.cons_append, sweep]
      rw [hline.append, ih hline.fits, List.append_assoc]

theorem mem_sweep {number used : Nat} {ls : List Line} {a : α}
    (h : a ∈ sweep step number used ls) :
    ∃ k line, used ≤ k ∧ ls[k]? = some line ∧ a ∈ (step (number + k) line (ls.drop (k + 1))).1 := by
  fun_induction sweep step number used ls with
  | case1 => cases h
  | case2 number used line rest ih =>
    obtain ⟨k, l, hk, hl, ha⟩ := ih h
    exact ⟨k + 1, l, Nat.succ_le_succ hk, hl, by rwa [Nat.add_right_comm] at ha⟩
  | case3 number line rest found used hfound ih =>
    rcases List.mem_append.mp h with h | h
    · exact ⟨0, line, Nat.le_refl 0, rfl, by rwa [Nat.add_zero, List.drop_one, List.tail_cons, hfound]⟩
    · obtain ⟨k, l, -, hl, ha⟩ := ih h
      exact ⟨k + 1, l, Nat.zero_le _, hl, by rwa [Nat.add_right_comm] at ha⟩

/-- A sweep keeps everything of a step together. -/
theorem exists_step_subset_sweep {number used : Nat} {ls : List Line} {a : α} (h : a ∈ sweep step number used ls) :
    ∃ n line rest, a ∈ (step n line rest).1 ∧ (step n line rest).1 ⊆ sweep step number used ls := by
  fun_induction sweep step number used ls with
  | case1 => cases h
  | case2 number used line rest ih => exact ih h
  | case3 number line rest found used hfound ih =>
    rcases List.mem_append.mp h with h | h
    · exact ⟨number, line, rest, by rwa [hfound], by rw [hfound]; exact List.subset_append_left _ _⟩
    · obtain ⟨n, l, below, ha, hsub⟩ := ih h
      exact ⟨n, l, below, ha, List.subset_append_of_subset_right _ hsub⟩

/-- If steps find the same further down but for `f`, so does the sweep. -/
theorem sweep_map {f : α → α} {k : Nat}
    (h : ∀ number line rest, step (number + k) line rest = Prod.map (List.map f) id (step number line rest))
    (number used : Nat) (ls : List Line) :
    sweep step (number + k) used ls = (sweep step number used ls).map f := by
  fun_induction sweep step number used ls with
  | case1 => simp [sweep]
  | case2 number used line rest ih =>
    rw [sweep, Nat.add_right_comm, ih]
  | case3 number line rest found used hfound ih =>
    rw [List.map_append, ← ih, sweep, h, hfound, Nat.add_right_comm]
    rfl

/-- If steps at lines that are related find the same, as far as `key` tells, so do sweeps. -/
theorem filterMap_sweep {κ : Type} {R : Line → Line → Prop} {key : α → Option κ}
    (hstep : ∀ number l m ls ms, R l m → List.Forall₂ R ls ms →
      (step number l ls).1.filterMap key = (step number m ms).1.filterMap key ∧
        (step number l ls).2 = (step number m ms).2)
    {ls ms : List Line} (h : List.Forall₂ R ls ms) (number used : Nat) :
    (sweep step number used ls).filterMap key = (sweep step number used ms).filterMap key := by
  induction h generalizing number used with
  | nil => rfl
  | @cons l m ls ms hline hrest ih =>
    cases used with
    | succ used => exact ih (number + 1) used
    | zero =>
      obtain ⟨hfound, hused⟩ := hstep number l m ls ms hline hrest
      simp only [sweep, List.filterMap_append]
      rw [hfound, hused, ih]

end Sweep

end AcornCatalog
