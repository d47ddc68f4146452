import AcornCatalog.Dependency.Inference
import AcornCatalog.Proofs.Identifier.Mention
import AcornCatalog.Proofs.OrderedMap

/-! Why a text depends on a name: because it names it outright, or because of what the types of its variables make of
its quantifiers, operators, members and calls. The dependencies of a text are the names that there is a reason for. -/

namespace AcornCatalog.Dependency

open Text Reader

theorem mem_quantified_types_iff {text type : String} :
    type ∈ (quantified text).map (·.2) ↔ ∃ x, (quantified text).get? x = some type := by
  have hentry (x : String) : (x, type) ∈ quantified text ↔ (quantified text).get? x = some type :=
    OrderedMap.mem_iff_get? (OrderedMap.nodup_keys_ofEntries _)
  simp only [List.mem_map, Prod.exists, exists_eq_right, hentry]

section Names

variable {c : TypeContext} {cs : List Char} {n : String}

theorem mem_operationNames_iff :
    n ∈ operationNames c cs ↔ ∃ left sign type method, (left, sign) ∈ found (anywhere operation) cs ∧
      c.owner? left = some type ∧ operatorMethod? sign (some type) false = some method ∧ n ∈ [method, type] := by
  rw [operationNames, List.mem_flatMap]
  constructor
  · rintro ⟨⟨left, sign⟩, hfound, hn⟩
    cases htype : c.owner? left with
    | none => simp [htype] at hn
    | some type =>
      cases hmethod : operatorMethod? sign (some type) false with
      | none => simp [htype, hmethod] at hn
      | some method => exact ⟨left, sign, type, method, hfound, htype, hmethod, by simpa [htype, hmethod] using hn⟩
  · rintro ⟨left, sign, type, method, hfound, htype, hmethod, hn⟩
    exact ⟨(left, sign), hfound, by simpa [htype, hmethod] using hn⟩

theorem mem_memberNames_iff {r : Reader (List Char × List Char)} :
    n ∈ memberNames c r cs ↔ ∃ owner member type, (owner, member) ∈ found (anywhere r) cs ∧
      c.owner? owner = some type ∧ n ∈ ownedNames type member := by
  rw [memberNames, List.mem_flatMap]
  constructor
  · rintro ⟨⟨owner, member⟩, hfound, hn⟩
    cases htype : c.owner? owner with
    | none => simp [htype] at hn
    | some type => exact ⟨owner, member, type, hfound, htype, by simpa [htype] using hn⟩
  · rintro ⟨owner, member, type, hfound, htype, hn⟩
    exact ⟨(owner, member), hfound, by simpa [htype] using hn⟩

theorem mem_functionNames_iff :
    n ∈ functionNames c cs ↔
      n.toList ∈ found functionCall cs ∧ n ∉ callingWords ∧ c.typeOf? n = none ∧ 1 < n.length := by
  rw [functionNames, List.mem_filter, List.mem_map]
  simp only [Bool.and_eq_true, Bool.not_eq_true', List.contains_eq_mem, decide_eq_false_iff_not,
    Option.isNone_iff_eq_none, decide_eq_true_eq, and_assoc]
  refine and_congr_left fun _ => ⟨?_, fun hfound => ⟨n.toList, hfound, String.ofList_toList⟩⟩
  rintro ⟨name, hfound, rfl⟩
  rwa [String.toList_ofList]

end Names

/-- A reason for which a text depends on a name. It rests on the type of the variable `source`, if it has one; that a
    function is called rests on its name having no type. -/
inductive Owed (text signature : String) : Option String → String → Prop
  | annotated {type : String} : type ∈ (annotations signature).map (·.2) → Owed text signature none type
  | bound {x type : String} : (quantified text).get? x = some type → Owed text signature (some x) type
  | qualified {type member : List Char} {n : String} :
      (type, member) ∈ found (atWordStart qualifiedMember) text.toList → n ∈ ownedNames (String.ofList type) member →
        Owed text signature none n
  | named {n : String} : n.toList ∈ found (atWordStart longTypeName) text.toList → n ∉ capitalWords →
      Owed text signature none n
  | operated {left : List Char} {sign type method n : String} :
      (left, sign) ∈ found (anywhere operation) text.toList → (contextOf text signature).owner? left = some type →
        operatorMethod? sign (some type) false = some method → n ∈ [method, type] →
          Owed text signature (some (String.ofList left)) n
  | member {owner member : List Char} {type n : String} :
      (owner, member) ∈ found (anywhere methodCall) text.toList ∨
          (owner, member) ∈ found (anywhere property) text.toList →
        (contextOf text signature).owner? owner = some type → n ∈ ownedNames type member →
          Owed text signature (some (String.ofList owner)) n
  | called {n : String} : n.toList ∈ found functionCall text.toList → n ∉ callingWords →
      (contextOf text signature).typeOf? n = none → 1 < n.length → Owed text signature (some n) n

theorem mem_dependencies_iff {text signature n : String} :
    n ∈ dependencies text signature ↔ ∃ source, Owed text signature source n := by
  rw [dependencies, Identifier.mem_sortedDistinct]
  simp only [List.mem_append, mem_quantified_types_iff, mem_operationNames_iff, mem_memberNames_iff,
    mem_functionNames_iff]
  constructor
  · rintro (((((((h | ⟨x, h⟩) | h) | h) | h) | h) | h) | h)
    · exact ⟨none, .annotated h⟩
    · exact ⟨some x, .bound h⟩
    · obtain ⟨⟨type, member⟩, hfound, hn⟩ := List.mem_flatMap.mp h
      exact ⟨none, .qualified hfound hn⟩
    · obtain ⟨hmem, hword⟩ := List.mem_filter.mp h
      obtain ⟨type, hfound, rfl⟩ := List.mem_map.mp hmem
      rw [← String.toList_ofList (l := type)] at hfound
      exact ⟨none, .named hfound (by simpa using hword)⟩
    · obtain ⟨left, sign, type, method, hfound, htype, hmethod, hn⟩ := h
      exact ⟨_, .operated hfound htype hmethod hn⟩
    · obtain ⟨owner, member, type, hfound, htype, hn⟩ := h
      exact ⟨_, .member (Or.inl hfound) htype hn⟩
    · obtain ⟨owner, member, type, hfound, htype, hn⟩ := h
      exact ⟨_, .member (Or.inr hfound) htype hn⟩
    · obtain ⟨hfound, hword, htype, hlength⟩ := h
      exact ⟨_, .called hfound hword htype hlength⟩
  · rintro ⟨source, h⟩
    cases h with
    | annotated h => exact Or.inl (Or.inl (Or.inl (Or.inl (Or.inl (Or.inl (Or.inl h))))))
    | bound h => exact Or.inl (Or.inl (Or.inl (Or.inl (Or.inl (Or.inl (Or.inr ⟨_, h⟩))))))
    | qualified hfound hn =>
      exact Or.inl (Or.inl (Or.inl (Or.inl (Or.inl (Or.inr (List.mem_flatMap.mpr ⟨_, hfound, hn⟩))))))
    | named hfound hword =>
      have hmem := List.mem_map.mpr ⟨_, hfound, String.ofList_toList⟩
      exact Or.inl (Or.inl (Or.inl (Or.inl (Or.inr (List.mem_filter.mpr ⟨hmem, by simpa using hword⟩)))))
    | operated hfound htype hmethod hn =>
      exact Or.inl (Or.inl (Or.inl (Or.inr ⟨_, _, _, _, hfound, htype, hmethod, hn⟩)))
    | member hfound htype hn =>
      rcases hfound with hfound | hfound
      · exact Or.inl (Or.inl (Or.inr ⟨_, _, _, hfound, htype, hn⟩))
      · exact Or.inl (Or.inr ⟨_, _, _, hfound, htype, hn⟩)
    | called hfound hword htype hlength => exact Or.inr ⟨hfound, hword, htype, hlength⟩

end AcornCatalog.Dependency
