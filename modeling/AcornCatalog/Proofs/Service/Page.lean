import AcornCatalog.Proofs.Sorting
import AcornCatalog.Proofs.Store.Numbering
import AcornCatalog.Proofs.Store.Search
import AcornCatalog.Service
import Mathlib.Data.Rat.Floor

/-! Pages of a listing. Counting and listing go by the same rule, so the pages cut what is found into pieces of one
length, the last of which may be shorter. A page that lies behind the last one shows the last one. If the pattern of a
query is too long, counting objects to it, and no page is shown. -/

namespace AcornCatalog.Service

open Store

/-! ### How many pages there are -/

section Counting
variable {total pageSize page : Nat}

theorem pageCount_eq (total : Nat) (h : 0 < pageSize) :
    pageCount total pageSize = max 1 ⌈(total : ℚ) / pageSize⌉₊ := by
  unfold pageCount
  congr 1
  refine eq_of_forall_ge_iff fun n => ?_
  have hpos : (0 : ℚ) < pageSize := by exact_mod_cast h
  rw [Nat.ceil_le, div_le_iff₀ hpos, Nat.div_le_iff_le_mul_add_pred h]
  norm_cast
  rw [Nat.mul_comm]
  omega

theorem pageCount_zero (h : 0 < pageSize) : pageCount 0 pageSize = 1 := by
  rw [pageCount, Nat.zero_add, Nat.div_eq_of_lt (by omega)]
  rfl

theorem le_pageCount_mul (h : 0 < pageSize) : total ≤ pageCount total pageSize * pageSize := by
  have hdiv : (total + pageSize - 1) / pageSize ≤ pageCount total pageSize := Nat.le_max_right ..
  have := (Nat.div_le_iff_le_mul_add_pred h).mp hdiv
  rw [Nat.mul_comm]
  omega

/-- Behind `page` full pages there is something left, if more pages than that are counted. -/
theorem mul_lt_of_lt_pageCount (h : 0 < pageSize) (hpos : 0 < total) (hpage : page < pageCount total pageSize) :
    page * pageSize < total := by
  rcases Nat.eq_zero_or_pos page with rfl | hpage0
  · omega
  · have hlt : page < (total + pageSize - 1) / pageSize := by
      rcases lt_max_iff.mp hpage with h1 | hdiv
      · omega
      · exact hdiv
    have hfull := (Nat.le_div_iff_mul_le h).mp hlt
    rw [Nat.succ_mul] at hfull
    omega

/-- What stands in front of the page that is shown is never more than there is. -/
theorem offset_le (page : Nat) (h : 0 < pageSize) : (shownPage total page pageSize - 1) * pageSize ≤ total := by
  have hpages : 1 ≤ pageCount total pageSize := Nat.le_max_left ..
  have hshown : shownPage total page pageSize - 1 < pageCount total pageSize := by
    unfold shownPage
    omega
  rcases Nat.eq_zero_or_pos total with rfl | hpos
  · rw [pageCount_zero h] at hshown
    obtain hfirst : shownPage 0 page pageSize - 1 = 0 := by omega
    rw [hfirst, Nat.zero_mul]
  · exact Nat.le_of_lt (mul_lt_of_lt_pageCount h hpos hshown)

end Counting

/-! ### What the pages show -/

section Pages
variable {α : Type} {createdAt : α → String} {found : List α} {pageSize : Nat}

/-- What is shown of rows that are found, on one of their pages. -/
def pageShown (found : List α) (pageSize page : Nat) : Page α :=
  { rows := (found.drop ((page - 1) * pageSize)).take pageSize
    total := found.length
    page
    pageSize
    pages := pageCount found.length pageSize }

/-- The rows of the first pages, one page after the other. -/
def rowsUpTo (shown : Nat → Page α) (pages : Nat) : List α :=
  (List.range' 1 pages).flatMap fun page => (shown page).rows

/-- Pages partition what is found. Put one after the other, they hold what is found, each row once and from the latest
    to the earliest. All pages but the last are full, and none is empty unless nothing is found. -/
structure Partitions (createdAt : α → String) (found : List α) (pageSize pages : Nat) (shown : Nat → Page α) :
    Prop where
  count : pages = max 1 ⌈(found.length : ℚ) / pageSize⌉₊
  labels : ∀ page, 1 ≤ page → page ≤ pages → (shown page).total = found.length ∧ (shown page).page = page ∧
    (shown page).pageSize = pageSize ∧ (shown page).pages = pages
  perm : (rowsUpTo shown pages).Perm found
  nodup : (rowsUpTo shown pages).Nodup
  latestFirst : (rowsUpTo shown pages).Pairwise fun a b => createdAt b ≤ createdAt a
  full : ∀ page, 1 ≤ page → page < pages → (shown page).rows.length = pageSize
  inhabited : 0 < found.length → ∀ page, 1 ≤ page → page ≤ pages → (shown page).rows ≠ []

/-- Every page that is asked for, counted from one, is answered, by the last one if there are fewer; and the answers
    partition what is found. -/
def Paginates (createdAt : α → String) (found : List α) (pageSize : Nat) (request : Nat → Answer (Page α)) : Prop :=
  ∃ pages shown, Partitions createdAt found pageSize pages shown ∧
    ∀ page, 1 ≤ page → request page = .ok (shown (min page pages))

theorem rowsUpTo_pageShown (found : List α) (pageSize pages : Nat) :
    rowsUpTo (pageShown found pageSize) pages = found.take (pages * pageSize) := by
  induction pages with
  | zero => simp [rowsUpTo]
  | succ pages ih =>
    simp only [rowsUpTo] at ih ⊢
    rw [List.range'_1_concat, List.flatMap_append, ih, Nat.succ_mul, List.take_add]
    simp [pageShown]

theorem latestFirst_perm (createdAt : α → String) (found : List α) : (latestFirst createdAt found).Perm found :=
  List.mergeSort_perm ..

/-- The latest come first, and those of one time as they stand. -/
theorem latestFirst_stable {R : α → α → Prop} (h : found.Pairwise R) :
    (latestFirst createdAt found).Pairwise fun a b =>
      createdAt b ≤ createdAt a ∧ (createdAt a ≤ createdAt b → R a b) := by
  have htrans : ∀ a b c : α, decide (createdAt b ≤ createdAt a) = true → decide (createdAt c ≤ createdAt b) = true →
      decide (createdAt c ≤ createdAt a) = true := fun a b c hab hbc => by
    simp only [decide_eq_true_eq] at hab hbc ⊢
    exact String.le_trans hbc hab
  have htotal : ∀ a b : α, (decide (createdAt b ≤ createdAt a) || decide (createdAt a ≤ createdAt b)) = true :=
    fun a b => by simpa using String.le_total (createdAt b) (createdAt a)
  simpa only [latestFirst, decide_eq_true_eq] using pairwise_mergeSort_stable htrans htotal h

theorem latestFirst_pairwise (createdAt : α → String) (found : List α) :
    (latestFirst createdAt found).Pairwise fun a b => createdAt b ≤ createdAt a :=
  (latestFirst_stable (List.pairwise_of_forall fun _ _ => trivial)).imp And.left

theorem pageShown_partitions (hsize : 0 < pageSize) (hnodup : found.Nodup) :
    Partitions createdAt found pageSize (pageCount found.length pageSize)
      (pageShown (latestFirst createdAt found) pageSize) := by
  have hperm := latestFirst_perm createdAt found
  have hlength : (latestFirst createdAt found).length = found.length := hperm.length_eq
  have hall : rowsUpTo (pageShown (latestFirst createdAt found) pageSize) (pageCount found.length pageSize) =
      latestFirst createdAt found := by
    rw [rowsUpTo_pageShown]
    exact List.take_of_length_le (hlength ▸ le_pageCount_mul hsize)
  refine ⟨pageCount_eq _ hsize, fun page _ _ => ⟨hlength, rfl, rfl, ?_⟩, ?_, ?_, ?_, ?_, ?_⟩
  · simp only [pageShown, hlength]
  · rw [hall]
    exact hperm
  · rw [hall]
    exact hperm.nodup_iff.mpr hnodup
  · rw [hall]
    exact latestFirst_pairwise createdAt found
  · intro page hpage hlast
    have hpos : 0 < found.length := by
      by_contra hnone
      rw [Nat.eq_zero_of_not_pos hnone, pageCount_zero hsize] at hlast
      omega
    have hend := mul_lt_of_lt_pageCount hsize hpos hlast
    have hsplit : page * pageSize = (page - 1) * pageSize + pageSize := by
      rw [← Nat.succ_mul, Nat.succ_eq_add_one, Nat.sub_add_cancel hpage]
    simp only [pageShown, List.length_take, List.length_drop, hlength]
    omega
  · intro hpos page hpage hlast hempty
    have hstart : (page - 1) * pageSize < found.length := mul_lt_of_lt_pageCount hsize hpos (by omega)
    have hlen := congrArg List.length hempty
    simp only [pageShown, List.length_take, List.length_drop, hlength, List.length_nil] at hlen
    omega

end Pages

/-! ### Requests for a page -/

section Requests
variable {α : Type} {w : Searching α} {id : α → Nat} {rows : List α} {query kind : Option String} {pageSize : Nat}
  {request : Nat → Answer (Page α)}

/-- A table is shown in pages, unless the pattern of the query is too long for the rows that are compared with it: then
    every page is refused. -/
structure Shows (w : Searching α) (rows : List α) (query kind : Option String) (pageSize : Nat)
    (request : Nat → Answer (Page α)) : Prop where
  paginates : overlong query (rows.filter (w.allowed kind)) = false →
    Paginates w.createdAt (rows.filter (w.selects query kind)) pageSize request
  refuses : overlong query (rows.filter (w.allowed kind)) = true →
    ∀ page, request page = .error (.store (.engine .longPattern))

/-- A page of the rows that a search of a table selects. -/
def searchPage (w : Searching α) (rows : List α) (query kind : Option String) (pageSize page : Nat) :
    Answer (Page α) := reading do
  pageOf (← w.count query kind (some rows)) page pageSize query kind (w.list · (some rows))

theorem pageOf_list (hsize : 0 < pageSize) (hmax : pageSize ≤ maxPageSize) (hnumbered : Numbered id rows)
    (hids : ∀ r ∈ rows, storable (some (id r)) = true)
    (hfit : overlong query (rows.filter (w.allowed kind)) = false) (page : Nat) :
    pageOf (rows.filter (w.selects query kind)).length page pageSize query kind (w.list · (some rows)) =
      .ok (pageShown (latestFirst w.createdAt (rows.filter (w.selects query kind))) pageSize
        (min page (pageCount (rows.filter (w.selects query kind)).length pageSize))) := by
  have hcheck : (pageListing (rows.filter (w.selects query kind)).length page pageSize query kind).check = .ok () := by
    have hlow : ¬((pageSize : Int) < 1) := by omega
    have hhigh : ¬((maxPageSize : Int) < pageSize) := by omega
    simp only [Listing.check, pageListing, hlow, hhigh, if_false]
  have hoffset :
      (pageListing (rows.filter (w.selects query kind)).length page pageSize query kind).checkOffset = .ok () := by
    have hstorable := hnumbered.storable_of_le hids
      ((offset_le page hsize).trans (List.length_filter_le (w.selects query kind) rows))
    simp only [Listing.checkOffset, pageListing, hstorable, if_true]
  have hlength : (latestFirst w.createdAt (rows.filter (w.selects query kind))).length =
      (rows.filter (w.selects query kind)).length := (latestFirst_perm ..).length_eq
  rw [pageOf, list_eq_ok hcheck hoffset hfit]
  simp only [pageShown, hlength]
  rfl

theorem shows_searchPage (hsize : 0 < pageSize) (hmax : pageSize ≤ maxPageSize) (hnumbered : Numbered id rows)
    (hids : ∀ r ∈ rows, storable (some (id r)) = true) :
    Shows w rows query kind pageSize (searchPage w rows query kind pageSize) := by
  refine ⟨fun hfit => ?_, fun hfit page => ?_⟩
  · refine ⟨_, _, pageShown_partitions hsize (hnumbered.nodup.filter _), fun page _ => ?_⟩
    rw [searchPage, count_eq, checkPattern_eq_ok hfit]
    exact congrArg reading (pageOf_list hsize hmax hnumbered hids hfit page)
  · rw [searchPage, count_eq, checkPattern_eq_error hfit]
    rfl

end Requests

/-! ### Pages of a store -/

/-- In every store that calls lead to, with or without the tables of theorems and definitions, each listing is cut into
    pages of every size that is allowed: items by query and kind, theorems and definitions by query. -/
theorem pages_partition_listings {start : Store} (hstart : start = Store.init {} ∨ start = withStatements.init)
    (calls : List Call) (hids : IdsStorable (start.after calls)) (query kind : Option String) {pageSize : Nat}
    (hsize : 1 ≤ pageSize) (hmax : pageSize ≤ 100) :
    (∃ rows, (start.after calls).items = some rows ∧
      Shows itemSearch rows query kind pageSize fun page => itemPage page pageSize query kind (start.after calls)) ∧
    (start = withStatements.init →
      (∃ rows, (start.after calls).theorems = some rows ∧
        Shows theoremSearch rows query none pageSize fun page =>
          theoremPage page pageSize query (start.after calls)) ∧
      ∃ rows, (start.after calls).definitions = some rows ∧
        Shows definitionSearch rows query none pageSize fun page =>
          definitionPage page pageSize query (start.after calls)) := by
  have hnumbered : RowsNumbered (start.after calls) := by
    refine after_induction ?_ (fun _ _ => RowsNumbered.change) calls
    rcases hstart with rfl | rfl
    · exact rowsNumbered_empty.change .init
    · exact rowsNumbered_withStatements.change .init
  obtain ⟨items, hrows, -⟩ := itemsSound_of_start hstart calls
  refine ⟨⟨items, hrows, ?_⟩, ?_⟩
  · simp only [itemPage, itemCount, listItems, hrows]
    exact shows_searchPage hsize hmax (hnumbered.items items hrows) (hids.items items hrows)
  rintro rfl
  obtain ⟨⟨theorems, htheorems, -⟩, ⟨definitions, hdefinitions, -⟩, -⟩ := statementsSound_after (.init :: calls)
  change (withStatements.init.after calls).theorems = some theorems at htheorems
  change (withStatements.init.after calls).definitions = some definitions at hdefinitions
  refine ⟨⟨theorems, htheorems, ?_⟩, definitions, hdefinitions, ?_⟩
  · simp only [theoremPage, theoremCount, listTheorems, htheorems]
    exact shows_searchPage hsize hmax (hnumbered.theorems theorems htheorems) (hids.theorems theorems htheorems)
  · simp only [definitionPage, definitionCount, listDefinitions, hdefinitions]
    exact shows_searchPage hsize hmax (hnumbered.definitions definitions hdefinitions)
      (hids.definitions definitions hdefinitions)

/-- Three items, two of which have the query in their names, on pages of one: a page far behind the last one is
    answered, by the last one. -/
theorem pages_partition_listings_three :
    let item := fun (name : String) => Call.addItem "t"
      { name := some name, kind := some "define", source := some "", filePath := some "a.ac" }
    let s := (Store.init {}).after [item "add", item "mul", item "Nat.add"]
    IdsStorable s ∧ ∃ rows, s.items = some rows ∧
      (rows.filter (itemSearch.selects (some "ADD ") (some "define"))).map (·.name) = ["add", "Nat.add"] ∧
      Paginates (·.createdAt) (rows.filter (itemSearch.selects (some "ADD ") (some "define"))) 1 fun page =>
        itemPage page 1 (some "ADD ") (some "define") s := by
  intro item s
  have hids : IdsStorable s := by
    refine ⟨fun rows hrows => ?_, nofun, nofun⟩
    cases hrows
    decide
  obtain ⟨⟨rows, hrows, hshows⟩, -⟩ := pages_partition_listings (Or.inl rfl) [item "add", item "mul", item "Nat.add"]
    hids (some "ADD ") (some "define") (by decide : 1 ≤ 1) (by decide)
  refine ⟨hids, rows, hrows, ?_, hshows.paginates ?_⟩
  · cases hrows
    decide
  · cases hrows
    decide

end AcornCatalog.Service
