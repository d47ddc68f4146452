import AcornCatalog.Dependency.Analysis
import AcornCatalog.Proofs.Dependency.Growth
import AcornCatalog.Proofs.Dependency.Reason

/-! Statements with a proof behind them. A proof takes no place of the statement away, but a quantifier in it gives a
variable its type for the statement too. So a name that the statement depends on goes missing only if every reason for
it rests on a variable, and all those variables have been given other types. -/

namespace AcornCatalog.Dependency

open Text Reader

/-- The quantifiers of the text come first, and the signature has what they leave open. -/
theorem typeOf?_contextOf (text signature x : String) :
    (contextOf text signature).typeOf? x = ((quantified text).get? x).or ((annotations signature).get? x) := by
  have hquantified : OrderedMap.ofEntries (quantified text) = quantified text :=
    OrderedMap.ofEntries_of_nodup (OrderedMap.nodup_keys_ofEntries _)
  rw [contextOf, TypeContext.typeOf?, OrderedMap.get?_insertAll, hquantified]

section Longer

variable {head proof signature x n : String}

theorem toList_feed (head : String) : (head ++ "\n").toList = head.toList ++ ['\n'] := String.toList_append

theorem toList_feed_append (head proof : String) :
    (head ++ "\n" ++ proof).toList = head.toList ++ ['\n'] ++ proof.toList := by
  rw [String.toList_append, toList_feed]

/-- A variable that has a type in the statement keeps one. -/
theorem isSome_quantified_append (h : ((quantified (head ++ "\n")).get? x).isSome = true) (proof : String) :
    ((quantified (head ++ "\n" ++ proof)).get? x).isSome = true := by
  rw [quantified, OrderedMap.isSome_get?_ofEntries_iff] at h ⊢
  obtain ⟨entry, hentry, rfl⟩ := List.mem_map.mp h
  obtain ⟨inner, hinner, hentry⟩ := List.mem_flatMap.mp hentry
  refine List.mem_map_of_mem (List.mem_flatMap.mpr ⟨inner, ?_, hentry⟩)
  rw [toList_feed] at hinner
  rw [toList_feed_append]
  exact found_quantifier_subset _ _ hinner

/-- A quantifier of the longer text gives the variable another type than it has in the text. -/
def Rebound (text longer signature x : String) : Prop :=
  ∃ type, (quantified longer).get? x = some type ∧ (contextOf text signature).typeOf? x ≠ some type

theorem typeOf?_eq_or_rebound (head proof signature x : String) :
    (contextOf (head ++ "\n" ++ proof) signature).typeOf? x = (contextOf (head ++ "\n") signature).typeOf? x ∨
      Rebound (head ++ "\n") (head ++ "\n" ++ proof) signature x := by
  cases hlonger : (quantified (head ++ "\n" ++ proof)).get? x with
  | some type =>
    by_cases hsame : (contextOf (head ++ "\n") signature).typeOf? x = some type
    · left
      rw [hsame, typeOf?_contextOf, hlonger, Option.some_or]
    · exact Or.inr ⟨type, hlonger, hsame⟩
  | none =>
    left
    have hnone : (quantified (head ++ "\n")).get? x = none := by
      cases hget : (quantified (head ++ "\n")).get? x with
      | none => rfl
      | some type =>
        have hsome := isSome_quantified_append (Option.isSome_iff_exists.mpr ⟨type, hget⟩) proof
        rw [hlonger] at hsome
        cases hsome
    rw [typeOf?_contextOf, typeOf?_contextOf, hlonger, hnone]

/-- A reason stays one with a proof behind the statement, if the variable that it rests on keeps its type. -/
theorem Owed.append {source : Option String} (h : Owed (head ++ "\n") signature source n)
    (hsame : ∀ x ∈ source, (contextOf (head ++ "\n" ++ proof) signature).typeOf? x =
      (contextOf (head ++ "\n") signature).typeOf? x) : Owed (head ++ "\n" ++ proof) signature source n := by
  have howner (name : List Char) (hname : String.ofList name ∈ source) :
      (contextOf (head ++ "\n" ++ proof) signature).owner? name = (contextOf (head ++ "\n") signature).owner? name := by
    rw [TypeContext.owner?, TypeContext.owner?, hsame _ hname]
  cases h with
  | annotated h => exact .annotated h
  | @bound x type h =>
    have hsome : ((quantified (head ++ "\n")).get? x).isSome = true := by
      rw [h]
      rfl
    obtain ⟨kept, hkept⟩ := Option.isSome_iff_exists.mp (isSome_quantified_append hsome proof)
    have htypes := hsame x rfl
    rw [typeOf?_contextOf, typeOf?_contextOf, h, hkept, Option.some_or, Option.some_or] at htypes
    exact .bound (hkept.trans htypes)
  | qualified hfound hn =>
    rw [toList_feed] at hfound
    refine .qualified ?_ hn
    rw [toList_feed_append]
    exact found_qualifiedMember_subset _ _ hfound
  | named hfound hword =>
    rw [toList_feed] at hfound
    refine .named ?_ hword
    rw [toList_feed_append]
    exact found_longTypeName_subset _ _ hfound
  | operated hfound htype hmethod hn =>
    rw [toList_feed] at hfound
    refine .operated ?_ ((howner _ rfl).trans htype) hmethod hn
    rw [toList_feed_append]
    exact found_operation_subset _ _ hfound
  | member hfound htype hn =>
    rw [toList_feed] at hfound
    refine .member ?_ ((howner _ rfl).trans htype) hn
    rw [toList_feed_append]
    -- a property may have become the method of a call, but stays a member of its owner
    rcases hfound with hfound | hfound
    · exact Or.inl (found_methodCall_subset _ _ hfound)
    · exact (property_or_methodCall hfound).symm
  | called hfound hword htype hlength =>
    rw [toList_feed] at hfound
    refine .called ?_ hword ((hsame _ rfl).trans htype) hlength
    rw [toList_feed_append]
    exact found_functionCall_subset _ _ hfound

/-- The text depends on the name for the sake of variables alone, and the longer text gives them all other types. -/
structure Hidden (text longer signature n : String) : Prop where
  owed : ∃ x, Owed text signature (some x) n
  rebound : ∀ source, Owed text signature source n → ∃ x ∈ source, Rebound text longer signature x

theorem mem_dependencies_or_hidden (h : n ∈ dependencies (head ++ "\n") signature) (proof : String) :
    n ∈ dependencies (head ++ "\n" ++ proof) signature ∨ Hidden (head ++ "\n") (head ++ "\n" ++ proof) signature n := by
  -- one reason whose variable keeps its type is enough
  by_cases hkept : ∃ source, Owed (head ++ "\n") signature source n ∧
      ∀ x ∈ source, ¬Rebound (head ++ "\n") (head ++ "\n" ++ proof) signature x
  · obtain ⟨source, howed, hsource⟩ := hkept
    refine Or.inl (mem_dependencies_iff.mpr ⟨source, howed.append fun x hx => ?_⟩)
    exact (typeOf?_eq_or_rebound head proof signature x).resolve_right (hsource x hx)
  · have hrebound : ∀ source, Owed (head ++ "\n") signature source n →
        ∃ x ∈ source, Rebound (head ++ "\n") (head ++ "\n" ++ proof) signature x := by
      intro source howed
      by_contra hnone
      exact hkept ⟨source, howed, fun x hx hbound => hnone ⟨x, hx, hbound⟩⟩
    obtain ⟨source, howed⟩ := mem_dependencies_iff.mp h
    obtain ⟨x, hx, -⟩ := hrebound source howed
    exact Or.inr ⟨⟨x, hx ▸ howed⟩, hrebound⟩

theorem mem_withoutSelf_or {P : String → Prop} {name : String} {shorter longer : List String}
    (h : ∀ n ∈ shorter, n ∈ longer ∨ P n) : ∀ n ∈ withoutSelf name shorter, n ∈ withoutSelf name longer ∨ P n := by
  intro n hn
  obtain ⟨hmem, hself⟩ := List.mem_filter.mp hn
  exact (h n hmem).imp_left fun hlonger => List.mem_filter.mpr ⟨hlonger, hself⟩

end Longer

/-- A proof hides a dependency of its statement only where quantifiers give other types to the variables that the
    dependency rests on. All others stay. -/
theorem proofs_hide_only_rebound (name head proof : String) (d : Statement) :
    (∀ n ∈ theoremDependencies name head "", n ∈ theoremDependencies name head proof ∨
      Hidden (head ++ "\n") (head ++ "\n" ++ proof)
        (((theoremSignature.taken? head.toList).map String.ofList).getD head) n) ∧
    (∀ n ∈ (Declaration.statement { d with proof := "" }).dependencyNames,
      n ∈ (Declaration.statement d).dependencyNames ∨
        Hidden (d.head ++ "\n") (d.head ++ "\n" ++ d.proof) d.head n) := by
  have hkept (head proof signature : String) (n : String) (hn : n ∈ dependencies (head ++ "\n" ++ "") signature) :
      n ∈ dependencies (head ++ "\n" ++ proof) signature ∨
        Hidden (head ++ "\n") (head ++ "\n" ++ proof) signature n := by
    rw [String.append_empty] at hn
    exact mem_dependencies_or_hidden hn proof
  exact ⟨mem_withoutSelf_or (hkept head proof _), mem_withoutSelf_or (hkept d.head d.proof d.head)⟩

/-- The proof makes an integer of `x`, and with it the addition of naturals in the statement is gone. -/
theorem proofs_hide_only_rebound_int :
    "Nat.add" ∈ theoremDependencies "t" "theorem t(x: Nat) \x7b x + x = x \x7d" "" ∧
      "Nat.add" ∉ theoremDependencies "t" "theorem t(x: Nat) \x7b x + x = x \x7d" "forall(x: Int) \x7b x + x = x \x7d" ∧
      Hidden ("theorem t(x: Nat) \x7b x + x = x \x7d" ++ "\n")
        ("theorem t(x: Nat) \x7b x + x = x \x7d" ++ "\n" ++ "forall(x: Int) \x7b x + x = x \x7d")
        "theorem t(x: Nat)" "Nat.add" := by
  have hwithout : "Nat.add" ∈ theoremDependencies "t" "theorem t(x: Nat) \x7b x + x = x \x7d" "" := by
    rw [theoremDependencies, withoutSelf, List.mem_filter, dependencies, Identifier.mem_sortedDistinct]
    decide +kernel
  have hwith : "Nat.add" ∉ theoremDependencies "t" "theorem t(x: Nat) \x7b x + x = x \x7d"
      "forall(x: Int) \x7b x + x = x \x7d" := by
    rw [theoremDependencies, withoutSelf, List.mem_filter, dependencies, Identifier.mem_sortedDistinct]
    decide +kernel
  obtain ⟨hhead, -⟩ := proofs_hide_only_rebound "t" "theorem t(x: Nat) \x7b x + x = x \x7d"
    "forall(x: Int) \x7b x + x = x \x7d" { name := "t", kind := .proposition, source := "" }
  have hsignature : ((theoremSignature.taken? "theorem t(x: Nat) \x7b x + x = x \x7d".toList).map String.ofList).getD
      "theorem t(x: Nat) \x7b x + x = x \x7d" = "theorem t(x: Nat)" := by decide +kernel
  have hhidden := (hhead "Nat.add" hwithout).resolve_left hwith
  rw [hsignature] at hhidden
  exact ⟨hwithout, hwith, hhidden⟩

end AcornCatalog.Dependency
