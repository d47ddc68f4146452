import AcornCatalog.Proofs.Dependency.Rebinding

/-! Types and what they own. A name gets a dot only where a member is put behind a type, and that type is a dependency
for the same reason as the name. The one exception is the type that a quantifier gives to a variable: it is whatever
stands there, dots included. -/

namespace AcornCatalog.Dependency

open Text Reader

/-! ### What the readers give -/

section Found

variable {α : Type} {probe : Probe α} {r : Reader α} {P : α → Prop}

/-- What is found has the properties of what is read. -/
theorem Tries.reads_of_mem_found (hprobe : Tries probe r) (h : Reads r P) {cs : List Char} {a : α}
    (ha : a ∈ found probe cs) : P a := by
  obtain ⟨front, rest, left, -, -, -, hread⟩ := mem_found_iff.mp ha
  rcases hprobe front.getLast? with hbefore | hbefore
  · rw [hbefore] at hread
    exact h rest a left hread
  · rw [hbefore] at hread
    cases hread

end Found

theorem IsVariable.dot_not_mem {w : List Char} (h : IsVariable w) : '.' ∉ w := by
  intro hmem
  have := h.lower '.' hmem
  cases this

theorem reads_lowerWord : Reads lowerWord IsVariable := fun _ _ _ h => (lowerWord_eq_some_iff.mp h).1

/-- No dot is in a word whose characters are none. -/
theorem reads_word_dotless {first next : Char → Bool} (hfirst : first '.' = false) (hnext : next '.' = false) :
    Reads (word first next) ('.' ∉ ·) := by
  have hdot (p : Char → Bool) (hp : p '.' = false) (c : Char) (hc : p c = true) : (c != '.') = true := by
    rw [bne_iff_ne]
    rintro rfl
    rw [hp] at hc
    cases hc
  intro cs w rest h hmem
  have := reads_word (hdot first hfirst) (hdot next hnext) cs w rest h '.' hmem
  cases this

theorem reads_annotation_dotless : Reads annotation fun r => '.' ∉ r.2 :=
  .bind fun _ => .bind fun _ => .bind fun _ => .bind fun _ =>
    (reads_word_dotless rfl rfl).andThen fun _ htype => .bind fun _ => .pure htype

theorem reads_longTypeName_dotless : Reads longTypeName ('.' ∉ ·) :=
  (reads_word_dotless rfl rfl).andThen fun _ htype => .bind fun _ => .ite (fun _ => .failure) (.pure htype)

theorem reads_qualifiedMember : Reads qualifiedMember fun r => '.' ∉ r.1 ∧ IsVariable r.2 :=
  (reads_word_dotless rfl rfl).andThen fun _ htype => .bind fun _ =>
    reads_lowerWord.andThen fun _ hmember => .bind fun _ => .pure ⟨htype, hmember⟩

theorem reads_calledName : Reads calledName IsVariable := by
  intro cs name rest h
  obtain ⟨gap, hname, -⟩ := calledName_eq_some_iff.mp h
  exact hname

theorem reads_methodCall : Reads methodCall fun r => IsVariable r.2 := by
  intro cs read rest h
  obtain ⟨gap, -, hname, -⟩ := methodCall_eq_some_iff.mp h
  exact hname

theorem uncalled_ne_nil {name tail shown left : List Char} (h : uncalled name tail = some (shown, left))
    (hname : name ≠ []) : shown ≠ [] := by
  unfold uncalled at h
  split at h
  · split at h
    · cases h
    · next hne =>
      cases h
      simpa using hne
  · cases h
    exact hname

theorem reads_property : Reads property fun r => IsVariable r.2 := by
  intro cs read rest h
  obtain ⟨name, tail, -, hname, -, -, hread⟩ := property_eq_some h
  exact hname.of_prefix (uncalled_eq_some hread).1 (uncalled_ne_nil hread hname.ne_nil)

/-- An operator stands for a member of the type of its left operand. -/
theorem operatorMethod?_eq_some {sign type method : String} (h : operatorMethod? sign (some type) false = some method) :
    ∃ member, IsVariable member ∧ method = type ++ "." ++ String.ofList member := by
  have hmethods : ∀ p ∈ binaryMethods, p.2.toList.head?.any isLowerStart = true ∧ p.2.toList.all isLowerChar = true := by
    decide
  unfold operatorMethod? at h
  split at h
  · next member type' hlookup htype =>
    cases htype
    split at h
    · cases h
    · cases h
      obtain ⟨front, back, hsplit, -⟩ := List.lookup_eq_some_iff.mp hlookup
      have hmem : (sign, member) ∈ binaryMethods := by
        have hback : (sign, member) ∈ front ++ (sign, member) :: back := by simp
        rwa [← hsplit] at hback
      obtain ⟨hhead, hlower⟩ := hmethods _ hmem
      exact ⟨member.toList, ⟨hhead, List.all_eq_true.mp hlower⟩, by rw [String.ofList_toList]⟩
  · cases h

/-! ### Names and the types that own them -/

/-- Names of one part. -/
def Dotless (n : String) : Prop := '.' ∉ n.toList

/-- The name is that of a type among `names` with a member behind it. -/
def OwnedAmong (names : List String) (n : String) : Prop :=
  ∃ type member, IsVariable member ∧ n = type ++ "." ++ String.ofList member ∧ type ∈ names

section Owners

variable {text signature n type : String}

theorem dotless_annotations (h : type ∈ (annotations signature).map (·.2)) : Dotless type := by
  obtain ⟨⟨x, t⟩, hmem, rfl⟩ := List.mem_map.mp h
  rw [annotations, OrderedMap.mem_iff_get? (OrderedMap.nodup_keys_ofEntries _)] at hmem
  obtain ⟨⟨name, t'⟩, hfound, heq⟩ := List.mem_map.mp (OrderedMap.mem_of_get?_ofEntries hmem)
  cases heq
  rw [Dotless, String.toList_ofList]
  intro hdot
  exact (tries_anywhere _).reads_of_mem_found reads_annotation_dotless hfound (List.mem_of_mem_filter hdot)

/-- The type of a variable comes from a quantifier, or from the signature and then it is a name of one part. -/
theorem quantified_or_dotless_of_owner? {x : List Char} (h : (contextOf text signature).owner? x = some type) :
    type ∈ (quantified text).map (·.2) ∨ Dotless type := by
  obtain ⟨htype, -⟩ := Option.filter_eq_some_iff.mp h
  rw [typeOf?_contextOf] at htype
  rcases Option.or_eq_some_iff.mp htype with hquantified | ⟨-, hannotated⟩
  · exact Or.inl (mem_quantified_types_iff.mpr ⟨_, hquantified⟩)
  · rw [annotations, ← OrderedMap.mem_iff_get? (OrderedMap.nodup_keys_ofEntries _)] at hannotated
    exact Or.inr (dotless_annotations (List.mem_map.mpr ⟨_, hannotated, rfl⟩))

/-- A reason for a member of a type is one for the type. -/
theorem Owed.quantified_or_dotless_or_owned {source : Option String} (h : Owed text signature source n) :
    n ∈ (quantified text).map (·.2) ∨ Dotless n ∨ OwnedAmong (dependencies text signature) n := by
  cases h with
  | annotated h => exact Or.inr (Or.inl (dotless_annotations h))
  | bound h => exact Or.inl (mem_quantified_types_iff.mpr ⟨_, h⟩)
  | @qualified type member _ hfound hn =>
    obtain ⟨htype, hmember⟩ := (tries_atWordStart _).reads_of_mem_found reads_qualifiedMember hfound
    have howner : String.ofList type ∈ dependencies text signature :=
      mem_dependencies_iff.mpr ⟨none, .qualified hfound (List.mem_cons_self ..)⟩
    rcases List.mem_pair.mp hn with rfl | rfl
    · exact Or.inr (Or.inl (by rwa [Dotless, String.toList_ofList]))
    · exact Or.inr (Or.inr ⟨_, member, hmember, rfl, howner⟩)
  | named hfound hword =>
    exact Or.inr (Or.inl ((tries_atWordStart _).reads_of_mem_found reads_longTypeName_dotless hfound))
  | @operated left sign type method _ hfound htype hmethod hn =>
    have howner : type ∈ dependencies text signature :=
      mem_dependencies_iff.mpr ⟨_, .operated hfound htype hmethod (by simp)⟩
    rcases List.mem_pair.mp hn with rfl | rfl
    · obtain ⟨member, hmember, heq⟩ := operatorMethod?_eq_some hmethod
      exact Or.inr (Or.inr ⟨type, member, hmember, heq, howner⟩)
    · exact (quantified_or_dotless_of_owner? htype).imp_right Or.inl
  | @member _ member type _ hfound htype hn =>
    have hmember : IsVariable member := by
      rcases hfound with hfound | hfound
      · exact (tries_anywhere _).reads_of_mem_found reads_methodCall hfound
      · exact (tries_anywhere _).reads_of_mem_found reads_property hfound
    have howner : type ∈ dependencies text signature :=
      mem_dependencies_iff.mpr ⟨_, .member hfound htype (List.mem_cons_self ..)⟩
    rcases List.mem_pair.mp hn with rfl | rfl
    · exact (quantified_or_dotless_of_owner? htype).imp_right Or.inl
    · exact Or.inr (Or.inr ⟨type, member, hmember, rfl, howner⟩)
  | called hfound hword htype hlength =>
    exact Or.inr (Or.inl (tries_functionCall.reads_of_mem_found reads_calledName hfound).dot_not_mem)

end Owners

/-- Every dependency with a dot in it is the type of a quantified variable, or a member of a type that is a dependency
    as well. -/
theorem dotted_dependencies_owned (text signature n : String) (hmem : n ∈ dependencies text signature)
    (hdot : '.' ∈ n.toList) :
    n ∈ (quantified text).map (·.2) ∨ OwnedAmong (dependencies text signature) n := by
  obtain ⟨source, howed⟩ := mem_dependencies_iff.mp hmem
  rcases howed.quantified_or_dotless_or_owned with hquantified | hdotless | howned
  · exact Or.inl hquantified
  · exact absurd hdot hdotless
  · exact Or.inr howned

/-- The quantifier brings in a type with a dot, and that type owns the operator and the member, although neither stands
    in the text. -/
theorem dotted_dependencies_owned_real :
    let text := "forall(x: real.Real) \x7b x.abs < y \x7d"
    "real.Real" ∈ (quantified text).map (·.2) ∧ "real.Real.abs" ∈ dependencies text "" ∧
      OwnedAmong (dependencies text "") "real.Real.abs" := by
  intro text
  have htype : "real.Real" ∈ (quantified text).map (·.2) := by decide +kernel
  have hmember : "real.Real.abs" ∈ dependencies text "" := by
    rw [dependencies, Identifier.mem_sortedDistinct]
    decide +kernel
  have hnot : "real.Real.abs" ∉ (quantified text).map (·.2) := by decide +kernel
  exact ⟨htype, hmember, (dotted_dependencies_owned text "" _ hmember (by decide)).resolve_left hnot⟩

end AcornCatalog.Dependency
