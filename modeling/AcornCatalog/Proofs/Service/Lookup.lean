import AcornCatalog.Proofs.Service.Page
import AcornCatalog.Proofs.Sorting
import AcornCatalog.Proofs.Store.Search

/-! Items by name. A name is answered by the item that has it and, if there is none, by one that has the same last part.
Such an item is looked for with the whole name, among the first hundred that a search for it lists. So it is passed over
if neither its name nor its source meets the whole name, or if a hundred others that do are listed in front of it; and a
name that is too long to be searched for is objected to. -/

namespace AcornCatalog.Service

open Store Search Text

/-! ### Items that answer to a name -/

/-- An item answers to a name that it has, and to one whose last part it has, alone or behind a dot. -/
def Answers (name : String) (r : ItemRow) : Prop :=
  r.name = name ∨ r.name = lastPart name ∨ ∃ owner, r.name = owner ++ "." ++ lastPart name

/-- A search for the name finds the item. -/
def Finds (name : String) (r : ItemRow) : Prop := Meets name r.name ∨ Meets name r.source

/-- Listings have an item in front of another if it came later, or at the same time and first. -/
def Ahead (a b : ItemRow) : Prop := b.createdAt < a.createdAt ∨ b.createdAt = a.createdAt ∧ a.id < b.id

section Items

variable {name : String} {r : ItemRow}

theorem standsFor_iff : standsFor name r = true ↔ Answers name r := by
  have hbehind : ('.' :: (lastPart name).toList).isSuffixOf r.name.toList = true ↔
      ∃ owner, r.name = owner ++ "." ++ lastPart name := by
    rw [List.isSuffixOf_iff_suffix]
    constructor
    · rintro ⟨front, heq⟩
      refine ⟨String.ofList front, String.toList_inj.mp ?_⟩
      simp [← heq]
    · rintro ⟨owner, heq⟩
      exact ⟨owner.toList, by simp [heq]⟩
  simp only [standsFor, Bool.or_eq_true, beq_iff_eq, hbehind, Answers, or_assoc]
  exact or_congr_right or_comm

theorem selects_iff_finds : itemSearch.selects (some name) none r = true ↔ Finds name r := by
  have hkind : itemSearch.allowed none r = true := rfl
  rw [Searching.selects, hkind, Bool.and_true, itemSearch, found_iff (List.cons_ne_nil _ _)]
  simp [Finds]

instance : Decidable (Finds name r) := decidable_of_iff _ selects_iff_finds

instance (a b : ItemRow) : Decidable (Ahead a b) := inferInstanceAs (Decidable (_ ∨ _))

theorem Ahead.asymm {a b : ItemRow} (h : Ahead a b) : ¬Ahead b a := by
  rintro (hlt | ⟨heq, hid⟩)
  · rcases h with hlt' | ⟨heq', -⟩
    · exact String.lt_asymm hlt hlt'
    · exact String.lt_irrefl _ (heq' ▸ hlt)
  · rcases h with hlt' | ⟨-, hid'⟩
    · exact String.lt_irrefl _ (heq ▸ hlt')
    · omega

/-- Where a name has no dot, a search for it finds whatever answers to it and has a name that is read to its end. -/
theorem Answers.finds (h : Answers name r) (hdot : '.' ∉ name.toList) (hread : '\x00' ∉ r.name.toList) :
    Finds name r := by
  rw [Answers, lastPart_of_not_mem hdot] at h
  have hwithin : name.toList <:+: r.name.toList := by
    rcases h with rfl | rfl | ⟨owner, heq⟩
    · exact List.infix_rfl
    · exact List.infix_rfl
    · rw [heq, String.toList_append]
      exact (List.suffix_append _ _).isInfix
  have hpart : trim name.toList <:+: readPart r.name.toList := by
    rw [readPart_eq_self hread]
    exact (trim_isInfix _).trans hwithin
  exact Or.inl (meets_of_mentions (fun hmem => hread (hwithin.subset hmem)) (mentions_iff.mpr ⟨_, hpart, rfl⟩))

end Items

/-! ### What a search shows -/

section Shown

variable {name : String} {rows : List ItemRow} {r : ItemRow}

/-- An item is passed over: the search does not find it, or has a hundred others in front of it. -/
def PassedOver (name : String) (rows : List ItemRow) (r : ItemRow) : Prop :=
  ¬Finds name r ∨ 100 ≤ rows.countP fun a => Finds name a ∧ Ahead a r

/-- What a search for the name finds, in the order of listings. -/
def foundItems (name : String) (rows : List ItemRow) : List ItemRow :=
  latestFirst (·.createdAt) (rows.filter (itemSearch.selects (some name) none))

theorem foundItems_perm (name : String) (rows : List ItemRow) :
    (foundItems name rows).Perm (rows.filter (itemSearch.selects (some name) none)) := latestFirst_perm ..

theorem foundItems_pairwise (name : String) (hrules : ItemRules rows) : (foundItems name rows).Pairwise Ahead := by
  refine (latestFirst_stable (hrules.ascending.filter _)).imp fun {a b} h => ?_
  obtain ⟨hle, hsame⟩ := h
  by_cases hback : a.createdAt ≤ b.createdAt
  · exact Or.inr ⟨String.le_antisymm hle hback, hsame hback⟩
  · exact Or.inl (String.not_le.mp hback)

/-- The first hundred are the items that are not passed over. -/
theorem mem_take_foundItems_iff (hrules : ItemRules rows) :
    r ∈ (foundItems name rows).take 100 ↔ r ∈ rows ∧ ¬PassedOver name rows r := by
  have hcount : (foundItems name rows).countP (Ahead · r) = rows.countP fun a => Finds name a ∧ Ahead a r := by
    rw [(foundItems_perm name rows).countP_eq, List.countP_filter]
    refine List.countP_congr fun a _ => ?_
    simp [selects_iff_finds, and_comm]
  rw [mem_take_iff_countP_lt (fun _ _ => Ahead.asymm) (foundItems_pairwise name hrules), hcount,
    (foundItems_perm name rows).mem_iff, List.mem_filter, selects_iff_finds, PassedOver, not_or, not_not,
    Nat.not_le, and_assoc]

/-- Nothing that is found is passed over if no more than a hundred are found. -/
theorem not_passedOver_of_finds (hrules : ItemRules rows) (hcount : rows.countP (Finds name ·) ≤ 100) (hr : r ∈ rows)
    (hfinds : Finds name r) : ¬PassedOver name rows r := by
  have hlength : (foundItems name rows).length ≤ 100 := by
    rw [(foundItems_perm name rows).length_eq, ← List.countP_eq_length_filter]
    refine Nat.le_trans (Nat.le_of_eq (List.countP_congr fun a _ => ?_)) hcount
    simp [selects_iff_finds]
  have hmem : r ∈ (foundItems name rows).take 100 := by
    rw [List.take_of_length_le hlength, (foundItems_perm name rows).mem_iff, List.mem_filter, selects_iff_finds]
    exact ⟨hr, hfinds⟩
  exact ((mem_take_foundItems_iff hrules).mp hmem).2

end Shown

/-! ### Looking up -/

section Answering

variable {name : String} {rows : List ItemRow} {s : Store}

/-- The answer that no item is there for a name. -/
def notFound (name : String) : Answer ItemRow := .error (.refused 404 ("Item not found: " ++ name))

/-- The answer that a name is too long to be searched for. -/
def objected : Answer ItemRow := .error (.store (.engine .longPattern))

theorem listItems_eq (hs : s.items = some rows) :
    s.listItems { limit := maxPageSize, query := some name } =
      (checkPattern (some name) rows).map fun _ => (foundItems name rows).take 100 := by
  have hcheck : Listing.check { limit := maxPageSize, query := some name } = .ok () :=
    check_eq_ok (by decide : (1 : Int) ≤ 100) (Int.le_refl 100)
  have hall : rows.filter (itemSearch.allowed none) = rows := List.filter_true rows
  rw [listItems, hs, list_eq hcheck rfl, hall]
  rfl

theorem readItem_eq (hs : s.items = some rows) :
    readItem name s = match rows.find? fun r => some r.name == some name with
      | some row => .ok row
      | none =>
        if overlong (some name) rows then objected
        else present ("Item not found: " ++ name) (((foundItems name rows).take 100).find? (standsFor name)) := by
  have hitem : s.item? (some name) = .ok (rows.find? fun r => some r.name == some name) := by
    rw [item?, hs]
    rfl
  rw [readItem, hitem, listItems_eq hs, checkPattern]
  cases rows.find? fun r => some r.name == some name with
  | some row => rfl
  | none => cases overlong (some name) rows <;> rfl

/-- How a name is answered from the rows of the items table. It fails for want of an item, namely if none has the name
    and all that answer to it are passed over, or because no item has the name and it is too long to be searched for. An
    item that has the name comes before all others, and of the others the one that is listed first. -/
structure LooksUp (name : String) (rows : List ItemRow) (answer : Answer ItemRow) : Prop where
  notFound_iff : answer = notFound name ↔
    overlong (some name) rows = false ∧ ∀ r ∈ rows, Answers name r → r.name ≠ name ∧ PassedOver name rows r
  objected_iff : answer = objected ↔ overlong (some name) rows = true ∧ ∀ r ∈ rows, r.name ≠ name
  failure : ∀ failure, answer = .error failure → answer = notFound name ∨ answer = objected
  answers : ∀ row, answer = .ok row → row ∈ rows ∧ Answers name row
  named : ∀ row, answer = .ok row → (∃ r ∈ rows, r.name = name) → row.name = name
  first : ∀ row, answer = .ok row → row.name ≠ name →
    ∀ r ∈ rows, Answers name r → ¬PassedOver name rows r → r = row ∨ Ahead row r

theorem looksUp_named {row : ItemRow} (hrow : row ∈ rows) (hname : row.name = name) :
    LooksUp name rows (.ok row) where
  notFound_iff := by
    refine ⟨nofun, fun h => ?_⟩
    exact absurd hname (h.2 row hrow (Or.inl hname)).1
  objected_iff := ⟨nofun, fun h => absurd hname (h.2 row hrow)⟩
  failure := nofun
  answers _ h := by
    cases h
    exact ⟨hrow, Or.inl hname⟩
  named _ h _ := by
    cases h
    exact hname
  first _ h hother := by
    cases h
    exact absurd hname hother

theorem looksUp_objected (hlong : overlong (some name) rows = true) (hnone : ∀ r ∈ rows, r.name ≠ name) :
    LooksUp name rows objected where
  notFound_iff := ⟨nofun, fun h => by simp [hlong] at h⟩
  objected_iff := ⟨fun _ => ⟨hlong, hnone⟩, fun _ => rfl⟩
  failure _ _ := Or.inr rfl
  answers := nofun
  named := nofun
  first := nofun

theorem looksUp_other (hrules : ItemRules rows) (hfit : overlong (some name) rows = false)
    (hnone : ∀ r ∈ rows, r.name ≠ name) :
    LooksUp name rows
      (present ("Item not found: " ++ name) (((foundItems name rows).take 100).find? (standsFor name))) := by
  have hobjected {p : Prop} : overlong (some name) rows = true ∧ p → False := fun h => by simp [hfit] at h
  cases hfind : ((foundItems name rows).take 100).find? (standsFor name) with
  | none =>
    refine ⟨⟨fun _ => ⟨hfit, fun r hr hanswers => ⟨hnone r hr, ?_⟩⟩, fun _ => rfl⟩,
      ⟨nofun, fun h => (hobjected h).elim⟩, fun _ _ => Or.inl rfl, nofun, nofun, nofun⟩
    by_contra hshown
    have hmem := (mem_take_foundItems_iff hrules).mpr ⟨hr, hshown⟩
    exact List.find?_eq_none.mp hfind r hmem (standsFor_iff.mpr hanswers)
  | some row =>
    obtain ⟨hstands, before, after, hsplit, hbefore⟩ := List.find?_eq_some_iff_append.mp hfind
    have hanswers := standsFor_iff.mp hstands
    obtain ⟨hrow, hshown⟩ := (mem_take_foundItems_iff hrules).mp (List.mem_of_find?_eq_some hfind)
    refine ⟨⟨nofun, fun h => absurd (h.2 row hrow hanswers).2 hshown⟩, ⟨nofun, fun h => (hobjected h).elim⟩, nofun,
      fun _ h => ?_, fun _ _ hnamed => ?_, fun _ h _ r hr hother hshown' => ?_⟩
    · cases h
      exact ⟨hrow, hanswers⟩
    · obtain ⟨r, hr, hname⟩ := hnamed
      exact absurd hname (hnone r hr)
    · cases h
      have hmem := (mem_take_foundItems_iff hrules).mpr ⟨hr, hshown'⟩
      have hahead := (foundItems_pairwise name hrules).sublist (List.take_sublist 100 _)
      rw [hsplit] at hmem hahead
      -- nothing listed in front of the row answers, and the row is ahead of all that is listed behind it
      rcases List.mem_append.mp hmem with hmem | hmem
      · simpa [standsFor_iff.mpr hother] using hbefore r hmem
      · rcases List.mem_cons.mp hmem with rfl | hmem
        · exact Or.inl rfl
        · exact Or.inr ((List.pairwise_cons.mp (List.pairwise_append.mp hahead).2.1).1 r hmem)

theorem looksUp_readItem (name : String) (hrules : ItemRules rows) (hs : s.items = some rows) :
    LooksUp name rows (readItem name s) := by
  rw [readItem_eq hs]
  split
  · next row hfind => exact looksUp_named (List.mem_of_find?_eq_some hfind) (by simpa using List.find?_some hfind)
  · next hfind =>
    have hnone : ∀ r ∈ rows, r.name ≠ name := fun r hr => by simpa using List.find?_eq_none.mp hfind r hr
    split
    · next hlong => exact looksUp_objected hlong hnone
    · next hfit => exact looksUp_other hrules (Bool.eq_false_iff.mpr hfit) hnone

/-- A name without dots is answered as long as no more than a hundred items are found with it, and it and the names of
    items can be searched for and read. -/
theorem LooksUp.notFound_iff_of_plain {answer : Answer ItemRow} (h : LooksUp name rows answer) (hrules : ItemRules rows)
    (hdot : '.' ∉ name.toList) (hfit : overlong (some name) rows = false) (hread : ∀ r ∈ rows, '\x00' ∉ r.name.toList)
    (hcount : rows.countP (Finds name ·) ≤ 100) : answer = notFound name ↔ ∀ r ∈ rows, ¬Answers name r := by
  rw [h.notFound_iff, and_iff_right hfit]
  refine forall₂_congr fun r hr => ⟨fun hpassed hanswers => ?_, fun hnot hanswers => absurd hanswers hnot⟩
  exact not_passedOver_of_finds hrules hcount hr (hanswers.finds hdot (hread r hr)) (hpassed hanswers).2

end Answering

/-- In every store that calls lead to, with or without the tables of theorems and definitions, every name is looked up
    among the items. One that has no dot is found whenever an item answers to it, unless more than a hundred items are
    found with it, it is too long, or a name of an item cannot be read to its end. -/
theorem item_looked_up {start : Store} (hstart : start = Store.init {} ∨ start = withStatements.init)
    (calls : List Call) (name : String) :
    ∃ rows, (start.after calls).items = some rows ∧ LooksUp name rows (readItem name (start.after calls)) ∧
      ('.' ∉ name.toList → overlong (some name) rows = false → (∀ r ∈ rows, '\x00' ∉ r.name.toList) →
        rows.countP (Finds name ·) ≤ 100 →
        (readItem name (start.after calls) = notFound name ↔ ∀ r ∈ rows, ¬Answers name r)) := by
  obtain ⟨rows, hrows, hrules⟩ := itemsSound_of_start hstart calls
  have hlooks := looksUp_readItem name hrules hrows
  exact ⟨rows, hrows, hlooks, hlooks.notFound_iff_of_plain hrules⟩

/-- The one item of a store has the last part of a name and answers to it, but is not found with the whole name. -/
theorem item_looked_up_behind_module :
    let call := Call.addItem "t" { name := some "add", kind := some "define", filePath := some "nat.ac",
                                   source := some "define add(a: Nat, b: Nat) -> Nat" }
    let s := (Store.init {}).after [call]
    ∃ row, s.items = some [row] ∧ Answers "nat.add" row ∧ readItem "nat.add" s = notFound "nat.add" := by
  intro call s
  obtain ⟨rows, hrows, hlooks, -⟩ := item_looked_up (Or.inl rfl) [call] "nat.add"
  cases hrows
  refine ⟨_, rfl, Or.inr (Or.inl rfl), hlooks.notFound_iff.mpr ⟨by decide, fun r hr _ => ?_⟩⟩
  rw [List.mem_singleton.mp hr]
  exact ⟨by decide, Or.inl (by decide)⟩

end AcornCatalog.Service
