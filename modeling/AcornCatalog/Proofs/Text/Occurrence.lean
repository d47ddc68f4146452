import AcornCatalog.Proofs.Text.Reader

/-! Where readers find something in a text. Occurrences stand where the reader succeeds, the first of them where it
first does, and a search begins anew behind a character that no occurrence takes. -/

namespace AcornCatalog.Text.Reader

/-- An occurrence stands where its probe succeeds. -/
theorem mem_occurrencesFrom {α : Type} {probe : Probe α} {before : Option Char} {column covered : Nat} {cs : List Char}
    {o : Occurrence α} (h : o ∈ occurrencesFrom probe before column covered cs) :
    ∃ i before rest, o.column = column + i ∧ probe before (cs.drop i) = some (o.value, rest) := by
  have later {column : Nat} {c : Char} {cs : List Char}
      (h : ∃ i before rest, o.column = column + 1 + i ∧ probe before (cs.drop i) = some (o.value, rest)) :
      ∃ i before rest, o.column = column + i ∧ probe before ((c :: cs).drop i) = some (o.value, rest) := by
    obtain ⟨i, before, rest, hcolumn, hprobe⟩ := h
    exact ⟨i + 1, before, rest, by omega, hprobe⟩
  fun_induction occurrencesFrom probe before column covered cs with
  | case1 => cases h
  | case2 before column covered c cs ih => exact later (ih h)
  | case3 before column c cs a rest hprobe ih =>
    rcases List.mem_cons.mp h with rfl | h
    · exact ⟨0, before, rest, rfl, hprobe⟩
    · exact later (ih h)
  | case4 before column c cs hprobe ih => exact later (ih h)

theorem atWordStart_eq_some_iff {α : Type} {r : Reader α} {b : Option Char} {cs rest : List Char} {a : α} :
    atWordStart r b cs = some (a, rest) ↔ b.any isWordChar = false ∧ r cs = some (a, rest) := by
  unfold atWordStart
  cases hb : b.any isWordChar with
  | true =>
    refine ⟨fun h => ?_, fun h => ?_⟩
    · cases h
    · cases h.1
  | false => simp

theorem atWordStart_eq_some {α : Type} {r : Reader α} {b : Option Char} {cs rest : List Char} {a : α}
    (h : atWordStart r b cs = some (a, rest)) : r cs = some (a, rest) :=
  (atWordStart_eq_some_iff.mp h).2

/-- What is read at the front is the first that is found, unless a word goes on there. -/
theorem mem_occurrencesFrom_of_read {α : Type} {r : Reader α} {c : Char} {cs rest : List Char} {a : α}
    (h : r (c :: cs) = some (a, rest)) {b : Option Char} (hb : b.any isWordChar = false) (column : Nat) :
    ⟨column, a⟩ ∈ occurrencesFrom (atWordStart r) b column 0 (c :: cs) := by
  have hprobe : atWordStart r b (c :: cs) = some (a, rest) := atWordStart_eq_some_iff.mpr ⟨hb, h⟩
  simp only [occurrencesFrom, hprobe]
  exact List.mem_cons_self ..

theorem length_le_of_not_mem {c : Char} (front : List Char) {post taken rest : List Char}
    (h : front ++ c :: post = taken ++ rest) (hc : c ∉ taken) : taken.length ≤ front.length := by
  rcases List.append_eq_append_iff.mp h with ⟨more, rfl, hmore⟩ | ⟨more, rfl, -⟩
  · cases more with
    | nil => simp
    | cons d more =>
      obtain ⟨rfl, -⟩ := List.cons.inj hmore
      exact absurd (by simp) hc
  · simp

/-- A search begins anew behind a character that no occurrence takes. -/
theorem occurrencesFrom_append {α : Type} {probe : Probe α} {c : Char}
    (hprobe : ∀ b cs a rest, probe b cs = some (a, rest) → ∃ taken, cs = taken ++ rest ∧ c ∉ taken)
    (front post : List Char) (b : Option Char) (column : Nat) {covered : Nat} (hcovered : covered ≤ front.length) :
    ∃ os, occurrencesFrom probe b column covered (front ++ c :: post) =
      os ++ occurrencesFrom probe (some c) (column + front.length + 1) 0 post := by
  induction front generalizing b column covered with
  | nil =>
    obtain rfl := Nat.le_zero.mp hcovered
    rw [List.nil_append, occurrencesFrom]
    split
    · rename_i a rest hread
      obtain ⟨taken, heq, hc⟩ := hprobe b _ a rest hread
      have hnone : post.length - rest.length = 0 := by
        have htaken := length_le_of_not_mem [] heq hc
        have hlength := congrArg List.length heq
        simp only [List.length_cons, List.length_append, List.length_nil] at htaken hlength
        omega
      exact ⟨[⟨column, a⟩], by rw [hnone]; rfl⟩
    · exact ⟨[], rfl⟩
  | cons d front ih =>
    have hcolumn : column + (d :: front).length + 1 = column + 1 + front.length + 1 := by
      rw [List.length_cons]
      omega
    rw [List.cons_append, hcolumn]
    cases covered with
    | succ covered =>
      rw [occurrencesFrom]
      exact ih (some d) (column + 1) (Nat.le_of_succ_le_succ hcovered)
    | zero =>
      rw [occurrencesFrom]
      split
      · rename_i a rest hread
        obtain ⟨taken, heq, hc⟩ := hprobe b _ a rest hread
        have hwithin : (front ++ c :: post).length - rest.length ≤ front.length := by
          have htaken := length_le_of_not_mem (d :: front) heq hc
          have hlength := congrArg List.length heq
          simp only [List.length_cons, List.length_append] at htaken hlength ⊢
          omega
        obtain ⟨os, hos⟩ := ih (some d) (column + 1) hwithin
        exact ⟨⟨column, a⟩ :: os, by rw [hos, List.cons_append]⟩
      · exact ih (some d) (column + 1) (Nat.zero_le _)

/-! ### The leftmost occurrence -/

theorem head?_occurrencesFrom {α : Type} {r : Reader α} {before : Option Char} {column : Nat} {cs : List Char}
    {first : Option (Occurrence α)} (h : (occurrencesFrom (fun _ => r) before column 0 cs).head? = first) :
    (∀ o ∈ first, ∃ i, o.column = column + i ∧ (r (cs.drop i)).isSome ∧ ∀ j < i, r (cs.drop j) = none) ∧
      (first = none → ∀ j < cs.length, r (cs.drop j) = none) := by
  induction cs generalizing before column with
  | nil =>
    subst h
    exact ⟨fun o ho => (Option.not_mem_none o ho).elim, fun _ j hj => absurd hj (Nat.not_lt_zero j)⟩
  | cons c cs ih =>
    cases hread : r (c :: cs) with
    | some read =>
      simp only [occurrencesFrom, hread, List.head?_cons] at h
      subst h
      refine ⟨fun o ho => ?_, fun hnone => nomatch hnone⟩
      obtain rfl := Option.some.inj ho
      exact ⟨0, rfl, by simp [hread], fun j hj => absurd hj (Nat.not_lt_zero j)⟩
    | none =>
      simp only [occurrencesFrom, hread] at h
      obtain ⟨hsome, hnone⟩ := ih h
      -- the reader fails at the first character, so what holds of the rest holds one column further on
      have hcons {i : Nat} (hleft : ∀ j < i, r (cs.drop j) = none) : ∀ j < i + 1, r ((c :: cs).drop j) = none := by
        intro j hj
        cases j with
        | zero => exact hread
        | succ j => exact hleft j (Nat.lt_of_succ_lt_succ hj)
      refine ⟨fun o ho => ?_, fun heq => hcons (hnone heq)⟩
      obtain ⟨i, hi, hread, hleft⟩ := hsome o ho
      exact ⟨i + 1, by omega, hread, hcons hleft⟩

/-- The leftmost occurrence stands where the reader first succeeds. -/
theorem first?_eq_some {α : Type} {r : Reader α} {cs : List Char} {o : Occurrence α} (h : first? r cs = some o) :
    (r (cs.drop o.column)).isSome ∧ ∀ j < o.column, r (cs.drop j) = none := by
  obtain ⟨i, hi, hread, hleft⟩ := (head?_occurrencesFrom h).1 o rfl
  rw [hi, Nat.zero_add]
  exact ⟨hread, hleft⟩

theorem first?_eq_none {α : Type} {r : Reader α} {cs : List Char} (h : first? r cs = none) :
    ∀ j < cs.length, r (cs.drop j) = none :=
  (head?_occurrencesFrom h).2 rfl

/-- The leftmost occurrence stays where it is if what stands behind the code holds none and makes none. -/
theorem first?_append {α : Type} {r : Reader α} {c : Char} {tail : List Char} (hneeds : Needs c r) (htail : c ∉ tail)
    (hread : ∀ code, r.read? (code ++ tail) = r.read? code) (code : List Char) :
    first? r (code ++ tail) = first? r code := by
  suffices ∀ before column, (occurrencesFrom (fun _ => r) before column 0 (code ++ tail)).head? =
      (occurrencesFrom (fun _ => r) before column 0 code).head? from this none 0
  intro before column
  induction code generalizing before column with
  | nil =>
    rw [List.nil_append, occurrencesFrom, List.head?_nil, List.head?_eq_none_iff, List.eq_nil_iff_forall_not_mem]
    intro o ho
    obtain ⟨i, _, rest, -, hsome⟩ := mem_occurrencesFrom ho
    have hnone := hneeds (tail.drop i) fun hmem => htail (List.mem_of_mem_drop hmem)
    simp [hnone] at hsome
  | cons d code ih =>
    have hd := hread (d :: code)
    rw [List.cons_append] at hd ⊢
    cases hcode : r (d :: code) with
    | none =>
      have hboth : r (d :: (code ++ tail)) = none := by simpa [Reader.read?, hcode] using hd
      simp only [occurrencesFrom, hcode, hboth, ih]
    | some read =>
      have hsome : r.read? (d :: code) = some read.1 := by rw [Reader.read?, hcode]; rfl
      obtain ⟨both, hboth, hvalue⟩ := Option.map_eq_some_iff.mp (hd.trans hsome)
      simp only [occurrencesFrom, hcode, hboth, List.head?_cons, hvalue]

end AcornCatalog.Text.Reader
