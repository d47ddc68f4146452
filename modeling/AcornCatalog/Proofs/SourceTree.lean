import AcornCatalog.Proofs.Declaration.Naming
import AcornCatalog.Proofs.Sorting
import AcornCatalog.Proofs.SourcePath
import AcornCatalog.SourceTree
import Mathlib.Data.List.Nodup

/-! The declarations in a tree of source files. Each comes from a file that is there, and stands at a line no further
down than the file has bytes. -/

namespace AcornCatalog

open Text

/-! ### Sizes of files -/

theorem Utf8.length_le_of_decodeFrom {i : Nat} {pending : Option Pending} {bytes : List UInt8} {text : List Char}
    (h : decodeFrom i pending bytes = .ok text) : text.length ≤ bytes.length := by
  -- a character comes with its last byte
  have last {c : Char} {b : UInt8} {bytes : List UInt8} {rest : Except Malformed (List Char)} {text : List Char}
      (h : rest.map (c :: ·) = .ok text) (ih : ∀ {text}, rest = .ok text → text.length ≤ bytes.length) :
      text.length ≤ (b :: bytes).length := by
    cases rest with
    | error malformed => cases h
    | ok tail =>
      cases h
      exact Nat.succ_le_succ (ih rfl)
  fun_induction decodeFrom i pending bytes generalizing text with
  | case1 =>
    cases h
    exact Nat.le_refl _
  | case2 => cases h
  | case3 i b bytes hshort ih => exact last h ih
  | case4 i b bytes hlong p hbegins ih => exact Nat.le_succ_of_le (ih h)
  | case5 => cases h
  | case6 =>
    rename_i ih
    exact last h ih
  | case7 =>
    rename_i ih
    exact last h ih
  | case8 =>
    rename_i ih
    exact Nat.le_succ_of_le (ih h)
  | case9 => cases h

theorem SourceFile.declaredIn_ofText {file : SourcePath} {bytes : List UInt8} {text : List Char}
    (htext : Utf8.decode bytes = .ok text) {d : Declaration} (hd : d ∈ (ofText file text).declarations) :
    d.DeclaredIn file bytes.length := by
  obtain ⟨⟨number, hnumber, hat⟩, huuid⟩ := declaredIn_of_mem hd
  refine ⟨⟨number, ?_, hat⟩, huuid⟩
  calc
    number < (lines (unifyBreaks text)).length := hnumber
    _ ≤ (unifyBreaks text).length := length_lines_le _
    _ ≤ text.length := length_unifyBreaks_le _
    _ ≤ bytes.length := Utf8.length_le_of_decodeFrom htext

namespace SourceTree

/-! ### Files -/

/-- The size of the largest file there can be; sizes are numbers of 64 bits with a sign. -/
def maxSize : Nat := 9223372036854775807

/-- The tree of some files, written one after the other. -/
def ofFiles (files : List (String × List UInt8)) : SourceTree :=
  files.foldl (fun t f => t.write (.ofString f.1) f.2) {}

section Files

variable {path root : SourcePath} {bytes : List UInt8} {tree : SourceTree}

theorem mem_write {f : SourcePath × List UInt8} (h : f ∈ (tree.write path bytes).files) :
    f ∈ tree.files ∨ f = (path, bytes) := by
  rcases List.mem_append.mp h with h | h
  · exact Or.inl (List.mem_filter.mp h).1
  · exact Or.inr (List.mem_singleton.mp h)

theorem mem_foldl_write {files : List (String × List UInt8)}
    (h : (path, bytes) ∈ (files.foldl (fun t f => t.write (.ofString f.1) f.2) tree).files) :
    (path, bytes) ∈ tree.files ∨ ∃ s, path = .ofString s ∧ (s, bytes) ∈ files := by
  induction files generalizing tree with
  | nil => exact Or.inl h
  | cons f files ih =>
    rcases ih h with h | ⟨s, rfl, hs⟩
    · rcases mem_write h with h | h
      · exact Or.inl h
      · cases h
        exact Or.inr ⟨f.1, rfl, List.mem_cons_self ..⟩
    · exact Or.inr ⟨s, rfl, List.mem_cons_of_mem _ hs⟩

theorem mem_ofFiles {files : List (String × List UInt8)} (h : (path, bytes) ∈ (ofFiles files).files) :
    ∃ s, path = .ofString s ∧ (s, bytes) ∈ files :=
  (mem_foldl_write h).resolve_left List.not_mem_nil

theorem mem_of_read? (h : tree.read? path = some bytes) : (path, bytes) ∈ tree.files := by
  obtain ⟨before, after, hfiles, -⟩ := List.lookup_eq_some_iff.mp h
  rw [hfiles]
  exact List.mem_append_right _ (List.mem_cons_self ..)

theorem isBelow_of_mem_sources (h : path ∈ tree.sources root) : isBelow root path = true := by
  have hmem := (List.mem_mergeSort.mp h)
  rw [List.mem_eraseDups, List.mem_filter, Bool.and_eq_true] at hmem
  exact hmem.2.1

theorem eq_inside_of_mem_sources (h : path ∈ tree.sources root) : ∃ inner, path = root.inside inner := by
  have hbelow := isBelow_of_mem_sources h
  simp only [isBelow, Bool.and_eq_true, beq_iff_eq, List.isPrefixOf_iff_prefix] at hbelow
  obtain ⟨⟨hslashes, inner, hparts⟩, -⟩ := hbelow
  refine ⟨inner, ?_⟩
  rw [SourcePath.inside, hparts, ← hslashes]

theorem nodup_sources (root : SourcePath) (tree : SourceTree) : (tree.sources root).Nodup :=
  (List.mergeSort_perm ..).nodup_iff.mpr (nodup_eraseDups _)

/-! ### Declarations -/

/-- The declarations in the file of that path; a file that cannot be read has none. -/
def declarationsIn (path : SourcePath) (tree : SourceTree) : List Declaration :=
  match tree.readSource path with
  | .ok file => file.declarations
  | .error _ => []

theorem declaredIn_of_mem {d : Declaration} (h : d ∈ tree.declarationsIn path) :
    ∃ bytes, (path, bytes) ∈ tree.files ∧ d.DeclaredIn path bytes.length := by
  unfold declarationsIn readSource at h
  cases hbytes : tree.read? path with
  | none =>
    rw [hbytes] at h
    cases h
  | some bytes =>
    cases htext : Utf8.decode bytes with
    | error malformed =>
      simp only [hbytes, SourceFile.ofBytes, htext] at h
      cases h
    | ok text =>
      simp only [hbytes, SourceFile.ofBytes, htext] at h
      exact ⟨bytes, mem_of_read? hbytes, SourceFile.declaredIn_ofText htext h⟩

end Files

end SourceTree

end AcornCatalog
