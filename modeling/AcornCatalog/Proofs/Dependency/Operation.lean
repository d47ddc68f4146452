import AcornCatalog.Proofs.Dependency.Reason
import AcornCatalog.Proofs.Dependency.Shape
import AcornCatalog.Proofs.Text.Scan
import Mathlib.Algebra.Group.Nat.Even

/-! Operators in rows of operands. The right operand of one operator may be the left operand of the next, but what a
search has taken it does not look at again. So of a row `a + b * c - d` it reads the first operation, passes over the
second, reads the third, and so on. -/

namespace AcornCatalog.Dependency

open Text Reader Header

/-! ### Rows -/

/-- So many operands, each with an operator behind it, stand in a row at the end of the text. What begins behind them is
    the next operand of the row; a row begins where no operand with an operator behind it comes in front. -/
inductive InRow : Nat → List Char → Prop where
  | first {front : List Char} (hopen : Opening front)
      (hlone : ∀ upper x g sign, IsVariable x → OperatorText sign g → front ≠ upper ++ (x ++ g)) : InRow 0 front
  | next {front x g : List Char} {sign : String} {n : Nat} (h : InRow n front) (hx : IsVariable x)
      (hg : OperatorText sign g) : InRow (n + 1) (front ++ (x ++ g))

section Rows

variable {front v tail : List Char} {n : Nat}

/-- Every variable has its place in a row. -/
theorem exists_inRow (front : List Char) (hopen : Opening front) : ∃ n, InRow n front := by
  by_cases hlone : ∀ upper x g sign, IsVariable x → OperatorText sign g → front ≠ upper ++ (x ++ g)
  · exact ⟨0, .first hopen hlone⟩
  · simp only [not_forall, not_not] at hlone
    obtain ⟨upper, x, g, sign, hx, hg, rfl⟩ := hlone
    -- the operand in front is the whole name that `x` is the tail of
    obtain ⟨upper', w, heq, hw, hupper⟩ := exists_opening upper hx
    have hshorter : upper'.length < (upper ++ (x ++ g)).length := by
      have hlength := congrArg List.length heq
      have hpos := List.length_pos_iff.mpr hw.ne_nil
      simp only [List.length_append] at hlength ⊢
      omega
    obtain ⟨n, hn⟩ := exists_inRow upper' hupper
    refine ⟨n + 1, ?_⟩
    rw [← List.append_assoc, heq, List.append_assoc]
    exact .next hn hw hg
termination_by front.length

theorem operation_of_not_lower {c : Char} (h : isLowerChar c = false) (cs : List Char) :
    operation (c :: cs) = none := by
  have hstart : isLowerStart c = false := by
    refine Bool.eq_false_iff.mpr fun hc => ?_
    rw [isLowerChar_of_isLowerStart hc] at h
    cases h
  exact bind_eq_none (bind_eq_none (by simp [one, hstart]))

/-- At the next operand of a row the search stands free if an even number of operands is in front of it; else that
    operand belongs to the operation in front. -/
theorem InRow.coveredBehind_eq (h : InRow n front) (hv : IsVariable v) (htail : Parted tail) :
    coveredBehind (anywhere operation) (v ++ tail) none 0 front = if Even n then 0 else v.length := by
  induction h generalizing v tail with
  | @first front hopen hlone =>
    rw [if_pos Even.zero]
    by_contra hbusy
    obtain ⟨upper, lower, ⟨u, sign⟩, left, rfl, hne, -, hread, hreach, -⟩ := exists_reaching hbusy
    obtain ⟨g, w, hu, hg, hw, hleft, heq⟩ := operation_eq_some_iff.mp hread
    obtain ⟨rfl, -⟩ := eq_of_reaching hne (hopen.of_suffix (List.suffix_append ..)) hv htail hu
      (fun _ => hg.isLowerChar_eq_false) hw hleft hreach heq
    exact hlone upper u g sign hu hg rfl
  | @next front x g sign n h hx hg ih =>
    have hparted : Parted (g ++ (v ++ tail)) := parted_append hg.ne_nil (fun _ => hg.isLowerChar_eq_false) _
    have hfront := ih hx hparted
    by_cases heven : Even n
    · -- the search stands free at `x` and takes `v` as its right operand
      rw [if_pos heven] at hfront
      rw [if_neg (by simpa [Nat.even_add_one] using heven)]
      have hread : operation (x ++ g ++ v ++ tail) = some ((x, sign), tail) :=
        operation_eq_some_iff.mpr ⟨g, v, hx, hg, hv, htail, by simp only [List.append_assoc]⟩
      have hfree : Free (anywhere operation) front (x ++ g ++ v ++ tail) := by
        simp only [List.append_assoc]
        exact hfront
      exact hfree.covered_of_read hread (by simp [hx.ne_nil])
    · -- `x` is a right operand itself, and nothing begins in the operator behind it
      rw [if_neg heven] at hfront
      rw [if_pos (by simpa [Nat.even_add_one] using heven)]
      have hbehind := (free_of_covered hfront).append fun c hc _ cs =>
        operation_of_not_lower (hg.isLowerChar_eq_false hc) cs
      rwa [List.append_assoc] at hbehind

end Rows

/-! ### Uses of operators -/

/-- An operator between two variables, which are whole words: neither a letter, a number, an underscore nor a dot
    touches them. -/
structure OperatorUse where
  front : List Char
  left : List Char
  between : List Char
  sign : String
  right : List Char
  behind : List Char
  isVariable_left : IsVariable left
  isVariable_right : IsVariable right
  operatorText : OperatorText sign between
  whole_left : ∀ c ∈ front.getLast?, isWordChar c = false ∧ c ≠ '.'
  whole_right : ∀ c ∈ behind.head?, isWordChar c = false ∧ c ≠ '.'

namespace OperatorUse

variable (u : OperatorUse)

/-- The text that the operator is used in. -/
def text : List Char := u.front ++ (u.left ++ (u.between ++ (u.right ++ u.behind)))

theorem opening_front : Opening u.front := by
  rintro w ⟨upper, hupper⟩ hw
  have hlast : w.getLast hw.ne_nil ∈ u.front.getLast? := by
    rw [← hupper, List.getLast?_append_of_ne_nil _ hw.ne_nil, List.getLast?_eq_some_getLast hw.ne_nil]
    rfl
  have hword := isWordChar_of_isNameChar (isNameChar_of_isLowerChar (hw.lower _ (List.getLast_mem hw.ne_nil)))
  rw [(u.whole_left _ hlast).1] at hword
  cases hword

theorem parted_behind : Parted u.behind := by
  intro c hc
  refine Bool.eq_false_iff.mpr fun hlower => ?_
  have hword := isWordChar_of_isNameChar (isNameChar_of_isLowerChar hlower)
  rw [(u.whole_right c hc).1] at hword
  cases hword

theorem operation_left :
    operation (u.left ++ (u.between ++ (u.right ++ u.behind))) = some ((u.left, u.sign), u.behind) :=
  operation_eq_some_iff.mpr
    ⟨u.between, u.right, u.isVariable_left, u.operatorText, u.isVariable_right, u.parted_behind, rfl⟩

theorem free_iff {n : Nat} (h : InRow n u.front) :
    Free (anywhere operation) u.front (u.left ++ (u.between ++ (u.right ++ u.behind))) ↔ Even n := by
  have hparted := parted_append u.operatorText.ne_nil (fun _ => u.operatorText.isLowerChar_eq_false)
    (u.right ++ u.behind)
  have hlength : u.left.length ≠ 0 := by simpa using u.isVariable_left.ne_nil
  rw [Free, h.coveredBehind_eq u.isVariable_left hparted]
  simp [hlength]

theorem mem_occurrences_iff {n : Nat} (h : InRow n u.front) :
    ⟨u.front.length, (u.left, u.sign)⟩ ∈ occurrences (anywhere operation) u.text ↔ Even n := by
  rw [← u.free_iff h, Text.mem_occurrences_iff]
  constructor
  · rintro ⟨front, rest, left, htext, -, hlength, hfree, -⟩
    obtain ⟨rfl, rfl⟩ := List.append_inj htext hlength
    exact hfree
  · intro hfree
    exact ⟨u.front, _, u.behind, rfl, by simp [u.isVariable_left.ne_nil], rfl, hfree, u.operation_left⟩

end OperatorUse

theorem lookup_binaryMethods {sign method : String} (h : (sign, method) ∈ binaryMethods) :
    binaryMethods.lookup sign = some method := by
  have hall : ∀ p ∈ binaryMethods, binaryMethods.lookup p.1 = some p.2 := by decide
  exact hall _ h

/-- An operation that is read gives the method of its operator, by the type of its left operand. -/
theorem mem_dependencies_of_operation {text signature sign type method : String} {left : List Char}
    (hfound : (left, sign) ∈ found (anywhere operation) text.toList)
    (htype : (contextOf text signature).typeOf? (String.ofList left) = some type) (hne : type ≠ "")
    (hmethod : (sign, method) ∈ binaryMethods) : type ++ "." ++ method ∈ dependencies text signature := by
  have howner : (contextOf text signature).owner? left = some type := by simp [TypeContext.owner?, htype, hne]
  have hoperator : operatorMethod? sign (some type) false = some (type ++ "." ++ method) := by
    simp [operatorMethod?, lookup_binaryMethods hmethod, hne]
  exact mem_dependencies_iff.mpr ⟨_, .operated hfound howner hoperator (List.mem_cons_self ..)⟩

/-- The left operand of an operator has its place in a row, and the operator is read exactly if the operands in front of
    it in the row are even in number. Then the text depends on the method of the operator for the type of that
    operand. -/
theorem operators_read_alternately (text signature : String) (u : OperatorUse) (htext : text.toList = u.text) :
    (∃ n, InRow n u.front) ∧
      ∀ n, InRow n u.front →
        (⟨u.front.length, (u.left, u.sign)⟩ ∈ occurrences (anywhere operation) text.toList ↔ Even n) ∧
        ∀ type method, (contextOf text signature).typeOf? (String.ofList u.left) = some type → type ≠ "" →
          (u.sign, method) ∈ binaryMethods → Even n → type ++ "." ++ method ∈ dependencies text signature := by
  refine ⟨exists_inRow u.front u.opening_front, fun n hn => ?_⟩
  have hread : ⟨u.front.length, (u.left, u.sign)⟩ ∈ occurrences (anywhere operation) text.toList ↔ Even n := by
    rw [htext]
    exact u.mem_occurrences_iff hn
  refine ⟨hread, fun type method htype hne hmethod heven => ?_⟩
  have hfound : (u.left, u.sign) ∈ found (anywhere operation) text.toList := List.mem_map.mpr ⟨_, hread.mpr heven, rfl⟩
  exact mem_dependencies_of_operation hfound htype hne hmethod

/-- Of the two operators in `x * y + z` the first is read and the second is not. -/
theorem operators_read_alternately_row :
    "Nat.mul" ∈ dependencies "x * y + z" "f(x: Nat, y: Nat, z: Nat)" ∧
      ⟨4, (['y'], "+")⟩ ∉ occurrences (anywhere operation) "x * y + z".toList ∧
      "Nat.add" ∉ dependencies "x * y + z" "f(x: Nat, y: Nat, z: Nat)" := by
  have hx : IsVariable ['x'] := ⟨rfl, by simp [isLowerChar]⟩
  have hy : IsVariable ['y'] := ⟨rfl, by simp [isLowerChar]⟩
  have hz : IsVariable ['z'] := ⟨rfl, by simp [isLowerChar]⟩
  have hmul : OperatorText "*" " * ".toList := ⟨[' '], [' '], rfl, rfl, by decide, rfl⟩
  have hadd : OperatorText "+" " + ".toList := ⟨[' '], [' '], rfl, rfl, by decide, rfl⟩
  have hfirst : InRow 0 [] := by
    refine .first Opening.nil fun upper x g sign hx _ h => ?_
    obtain ⟨-, hnil⟩ := List.append_eq_nil_iff.mp h.symm
    exact hx.ne_nil (List.append_eq_nil_iff.mp hnil).1
  have hspace : isWordChar ' ' = false := rfl
  let left : OperatorUse :=
    ⟨[], ['x'], " * ".toList, "*", ['y'], " + z".toList, hx, hy, hmul, by simp, by simp [hspace]⟩
  let right : OperatorUse :=
    ⟨"x * ".toList, ['y'], " + ".toList, "+", ['z'], [], hy, hz, hadd, by simp [hspace], by simp⟩
  obtain ⟨-, hleft⟩ := operators_read_alternately "x * y + z" "f(x: Nat, y: Nat, z: Nat)" left rfl
  obtain ⟨-, hright⟩ := operators_read_alternately "x * y + z" "f(x: Nat, y: Nat, z: Nat)" right rfl
  have htype : (contextOf "x * y + z" "f(x: Nat, y: Nat, z: Nat)").typeOf? "x" = some "Nat" := by decide +kernel
  have hmethod : ("*", "mul") ∈ binaryMethods := by decide
  refine ⟨(hleft 0 hfirst).2 "Nat" "mul" htype (by decide) hmethod Even.zero, fun h => ?_, ?_⟩
  · have heven := (hright 1 (hfirst.next hx hmul)).1.mp h
    cases Nat.not_even_one heven
  · rw [dependencies, Identifier.mem_sortedDistinct]
    decide +kernel

end AcornCatalog.Dependency
