import AcornCatalog.Proofs.Text.Line
import AcornCatalog.SourcePath

/-! Writing a path and reading it again. What reading gives is written so that reading it gives the same path, so no two
such paths are written alike. -/

namespace AcornCatalog.SourcePath

open Text

/-- A path as it is read: at most two slashes in front, and components that can be told apart when they are written. -/
structure WellFormed (p : SourcePath) : Prop where
  slashes : p.slashes ≤ 2
  parts : ∀ part ∈ p.parts, part ≠ "" ∧ part ≠ "." ∧ '/' ∉ part.toList

theorem wellFormed_ofString (s : String) : (ofString s).WellFormed where
  slashes := by
    simp only [ofString]
    split
    · omega
    · split <;> omega
  parts part hpart := by
    obtain ⟨hpiece, hkept⟩ := List.mem_filter.mp hpart
    obtain ⟨piece, hcut, rfl⟩ := List.mem_map.mp hpiece
    rw [Bool.and_eq_true, bne_iff_ne, bne_iff_ne] at hkept
    refine ⟨hkept.1, hkept.2, ?_⟩
    rw [String.toList_ofList]
    exact not_mem_of_mem_cut hcut

theorem cut_replicate_append (sep : Char) (n : Nat) (cs : List Char) :
    cut sep (List.replicate n sep ++ cs) = List.replicate n [] ++ cut sep cs := by
  induction n with
  | zero => rfl
  | succ n ih => rw [List.replicate_succ, List.cons_append, cut, if_pos rfl, ih, List.replicate_succ, List.cons_append]

theorem toList_plain (p : SourcePath) :
    p.plain.toList = List.replicate p.slashes '/' ++ ['/'].intercalate (p.parts.map String.toList) := by
  simp [plain]

namespace WellFormed

variable {p q : SourcePath}

theorem parts_ofString_plain (h : p.WellFormed) : (ofString p.plain).parts = p.parts := by
  have hkept : p.parts.filter (fun part => part != "" && part != ".") = p.parts := by
    refine List.filter_eq_self.mpr fun part hpart => ?_
    obtain ⟨hempty, hdot, -⟩ := h.parts part hpart
    rw [Bool.and_eq_true, bne_iff_ne, bne_iff_ne]
    exact ⟨hempty, hdot⟩
  have hslashes : (List.replicate p.slashes "").filter (fun part => part != "" && part != ".") = [] := by
    rw [List.filter_replicate]
    rfl
  simp only [ofString, toList_plain, cut_replicate_append, List.map_append, List.map_replicate, List.filter_append,
    String.ofList_nil, hslashes, List.nil_append]
  by_cases hnone : p.parts = []
  · rw [hnone]
    rfl
  · rw [cut_intercalate (by simpa using hnone), List.map_map]
    · simpa [Function.comp_def] using hkept
    · intro piece hpiece
      obtain ⟨part, hpart, rfl⟩ := List.mem_map.mp hpiece
      exact (h.parts part hpart).2.2

/-- The slashes in front are told from those between components, as no component is empty. -/
theorem takeWhile_plain (h : p.WellFormed) :
    p.plain.toList.takeWhile (· == '/') = List.replicate p.slashes '/' := by
  have hbody : (['/'].intercalate (p.parts.map String.toList)).takeWhile (· == '/') = [] := by
    cases hparts : p.parts with
    | nil => rfl
    | cons part rest =>
      obtain ⟨hempty, -, hslash⟩ := h.parts part (hparts ▸ List.mem_cons_self ..)
      obtain ⟨c, cs, hcs⟩ := List.exists_cons_of_ne_nil (fun hnil => hempty (String.toList_eq_nil_iff.mp hnil))
      have hc : c ≠ '/' := fun hc => hslash (by simp [hcs, hc])
      rw [List.map_cons, hcs, List.intercalate_cons_cons_left]
      exact List.takeWhile_cons_of_neg (by simpa using hc)
  rw [toList_plain, List.takeWhile_append_of_pos (by simp), hbody, List.append_nil]

/-- A path that is written and read again is the same. -/
theorem ofString_text (h : p.WellFormed) : ofString p.text = p := by
  have hslashes : (ofString p.plain).slashes = p.slashes := by
    have := h.slashes
    simp only [ofString, h.takeWhile_plain, List.length_replicate]
    split
    · omega
    · split <;> omega
  have hread : ofString p.plain = p := by
    calc
      ofString p.plain = ⟨(ofString p.plain).slashes, (ofString p.plain).parts⟩ := rfl
      _ = p := by rw [hslashes, h.parts_ofString_plain]
  by_cases hplain : p.plain = ""
  · rw [text, if_pos hplain, ← hread, hplain]
    rfl
  · rw [text, if_neg hplain, hread]

theorem eq_of_text_eq (hp : p.WellFormed) (hq : q.WellFormed) (h : p.text = q.text) : p = q := by
  rw [← hp.ofString_text, h, hq.ofString_text]

theorem of_inside {inner : List String} (h : (p.inside inner).WellFormed) : WellFormed ⟨0, inner⟩ where
  slashes := Nat.zero_le 2
  parts part hpart := h.parts part (List.mem_append_right _ hpart)

end WellFormed

/-! ### Paths that lead from a folder -/

theorem relativeTo_inside (root : SourcePath) (inner : List String) :
    (root.inside inner).relativeTo root = .ok ⟨0, inner⟩ := by
  simp [relativeTo, inside]

theorem inside_inside (root : SourcePath) (outer inner : List String) :
    (root.inside outer).inside inner = root.inside (outer ++ inner) := by
  simp [inside]

end AcornCatalog.SourcePath
