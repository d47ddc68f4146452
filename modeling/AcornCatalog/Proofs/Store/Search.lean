import AcornCatalog.Proofs.Text.Blank
import AcornCatalog.Store.Query
import Mathlib.Data.List.Basic

/-! Searching the store. A pattern fits a text if the text can be divided among the places of the pattern, and following
all divisions at once finds out whether it can. So a query is found wherever a part of a text fits it: where the query
itself stands, in whatever case its letters are, and only there if it has no wildcards. All this is about what is read
of a text, and a query that is not read to its end is found only where the text ends. -/

namespace AcornCatalog.Search

open Text

/-! ### What patterns fit -/

/-- What one place of a pattern may stand for. -/
def Wildcard.Takes : Wildcard → List Char → Prop
  | .anyRun, _ => True
  | .anyOne, part => ∃ c, part = [c]
  | .exactly c, part => ∃ d, part = [d] ∧ sameLetter c d = true

/-- The text can be divided among the places of the pattern, front to back. -/
inductive Fits : List Wildcard → List Char → Prop where
  | nil : Fits [] []
  | cons {w : Wildcard} {pattern : List Wildcard} {part rest : List Char} (takes : w.Takes part)
      (fits : Fits pattern rest) : Fits (w :: pattern) (part ++ rest)

section Fits

variable {p q : List Wildcard} {w : Wildcard} {t : List Char}

theorem fits_nil_iff : Fits [] t ↔ t = [] := by
  constructor
  · intro h
    cases h
    rfl
  · rintro rfl
    exact .nil

theorem fits_cons_iff : Fits (w :: p) t ↔ ∃ part rest, w.Takes part ∧ Fits p rest ∧ t = part ++ rest := by
  constructor
  · intro h
    cases h with
    | cons takes fits => exact ⟨_, _, takes, fits, rfl⟩
  · rintro ⟨part, rest, takes, fits, rfl⟩
    exact .cons takes fits

theorem fits_append_iff : Fits (p ++ q) t ↔ ∃ a b, Fits p a ∧ Fits q b ∧ t = a ++ b := by
  induction p generalizing t with
  | nil => simp [fits_nil_iff]
  | cons w p ih =>
    rw [List.cons_append, fits_cons_iff]
    constructor
    · rintro ⟨part, rest, takes, fits, rfl⟩
      obtain ⟨a, b, ha, hb, rfl⟩ := ih.mp fits
      exact ⟨part ++ a, b, .cons takes ha, hb, (List.append_assoc ..).symm⟩
    · rintro ⟨a, b, ha, hb, rfl⟩
      obtain ⟨part, rest, takes, fits, rfl⟩ := fits_cons_iff.mp ha
      exact ⟨part, rest ++ b, takes, ih.mpr ⟨rest, b, fits, hb, rfl⟩, List.append_assoc ..⟩

/-- Behind a run a pattern fits an end of the text. -/
theorem fits_behind_run_iff : Fits (.anyRun :: p) t ↔ ∃ part, part <:+ t ∧ Fits p part := by
  rw [fits_cons_iff]
  constructor
  · rintro ⟨front, part, -, fits, rfl⟩
    exact ⟨part, List.suffix_append front part, fits⟩
  · rintro ⟨part, ⟨front, rfl⟩, fits⟩
    exact ⟨front, part, trivial, fits, rfl⟩

/-- Between two runs a pattern fits a part of the text. -/
theorem fits_between_runs_iff :
    Fits (.anyRun :: (p ++ [.anyRun])) t ↔ ∃ part, part <:+: t ∧ Fits p part := by
  rw [fits_behind_run_iff]
  constructor
  · rintro ⟨rest, ⟨front, rfl⟩, fits⟩
    obtain ⟨part, back, hpart, -, rfl⟩ := fits_append_iff.mp fits
    exact ⟨part, ⟨front, back, List.append_assoc ..⟩, hpart⟩
  · rintro ⟨part, ⟨front, back, rfl⟩, hpart⟩
    have hback : Fits [.anyRun] back := fits_cons_iff.mpr ⟨back, [], trivial, .nil, (List.append_nil _).symm⟩
    exact ⟨part ++ back, ⟨front, (List.append_assoc ..).symm⟩, fits_append_iff.mpr ⟨part, back, hpart, hback, rfl⟩⟩

end Fits

/-! ### Following all divisions at once -/

/-- The texts are ends of one text, longest first. -/
def Nested (texts : List (List Char)) : Prop := texts.Pairwise fun long short => short <:+ long

section Steps

variable {texts : List (List Char)} {w : Wildcard} {rest : List Char}

theorem mem_ends {t : List Char} : rest ∈ ends t ↔ rest <:+ t := by
  induction t with
  | nil => simp [ends]
  | cons c t ih => rw [ends, List.mem_cons, ih, List.suffix_cons_iff]

theorem nested_ends (t : List Char) : Nested (ends t) := by
  induction t with
  | nil => exact List.pairwise_singleton ..
  | cons c t ih => exact List.pairwise_cons.mpr ⟨fun s hs => (mem_ends.mp hs).trans (List.suffix_cons c t), ih⟩

/-- Taking one character off each text, and some of the texts away, leaves ends of one text. -/
theorem Nested.map_tail (h : Nested texts) (keep : List Char → Bool) :
    Nested ((texts.filter keep).map List.tail) := by
  refine List.pairwise_map.mpr ((h.filter keep).imp ?_)
  rintro long short ⟨front, rfl⟩
  cases front with
  | nil => exact List.suffix_refl _
  | cons c front => exact (List.tail_suffix short).trans (List.suffix_append front short)

theorem step_anyOne : Wildcard.anyOne.step texts = (texts.filter fun t => !t.isEmpty).map List.tail := by
  rw [Wildcard.step, ← List.filterMap_eq_map, ← List.filterMap_eq_filter, List.filterMap_filterMap]
  congr 1
  funext t
  cases t <;> rfl

theorem step_exactly (c : Char) :
    (Wildcard.exactly c).step texts = (texts.filter fun t => t.head?.any (sameLetter c)).map List.tail := by
  rw [Wildcard.step, ← List.filterMap_eq_map, ← List.filterMap_eq_filter, List.filterMap_filterMap]
  congr 1
  funext t
  cases t with
  | nil => rfl
  | cons d t => cases hd : sameLetter c d <;> simp [hd, Option.guard]

theorem Nested.step (h : Nested texts) (w : Wildcard) : Nested (w.step texts) := by
  cases w with
  | anyRun =>
    cases texts with
    | nil => exact .nil
    | cons longest texts => exact nested_ends longest
  | anyOne => exact step_anyOne ▸ h.map_tail _
  | exactly c => exact step_exactly c ▸ h.map_tail _

/-- What one place can leave of the texts is just what remains behind a part that it takes. -/
theorem mem_step (h : Nested texts) : rest ∈ w.step texts ↔ ∃ part, w.Takes part ∧ part ++ rest ∈ texts := by
  cases w with
  | anyRun =>
    cases texts with
    | nil => simp [Wildcard.step]
    | cons longest texts =>
      rw [Wildcard.step, mem_ends]
      constructor
      · rintro ⟨run, rfl⟩
        exact ⟨run, trivial, List.mem_cons_self ..⟩
      · rintro ⟨run, -, hmem⟩
        -- a run that starts in a shorter text starts in the longest one too
        have hend : run ++ rest <:+ longest := by
          rcases List.mem_cons.mp hmem with heq | hmem
          · exact heq ▸ List.suffix_refl _
          · exact (List.pairwise_cons.mp h).1 _ hmem
        exact (List.suffix_append run rest).trans hend
  | anyOne =>
    rw [step_anyOne]
    simp only [List.mem_map, List.mem_filter]
    constructor
    · rintro ⟨t, ⟨hmem, hne⟩, rfl⟩
      obtain ⟨c, t, rfl⟩ := List.exists_cons_of_ne_nil (by simpa using hne : t ≠ [])
      exact ⟨[c], ⟨c, rfl⟩, hmem⟩
    · rintro ⟨part, ⟨c, rfl⟩, hmem⟩
      exact ⟨c :: rest, ⟨hmem, rfl⟩, rfl⟩
  | exactly c =>
    rw [step_exactly]
    simp only [List.mem_map, List.mem_filter]
    constructor
    · rintro ⟨t, ⟨hmem, hhead⟩, rfl⟩
      cases t with
      | nil => cases hhead
      | cons d t => exact ⟨[d], ⟨d, rfl, hhead⟩, hmem⟩
    · rintro ⟨part, ⟨d, rfl, hd⟩, hmem⟩
      exact ⟨d :: rest, ⟨hmem, hd⟩, rfl⟩

theorem mem_foldl_step (h : Nested texts) (pattern : List Wildcard) :
    rest ∈ pattern.foldl Wildcard.step texts ↔ ∃ part, Fits pattern part ∧ part ++ rest ∈ texts := by
  induction pattern generalizing texts with
  | nil => simp [fits_nil_iff]
  | cons w pattern ih =>
    rw [List.foldl_cons, ih (h.step w)]
    constructor
    · rintro ⟨back, fits, hmem⟩
      obtain ⟨part, takes, hmem⟩ := (mem_step h).mp hmem
      exact ⟨part ++ back, .cons takes fits, by rwa [List.append_assoc]⟩
    · rintro ⟨both, hboth, hmem⟩
      obtain ⟨part, back, takes, fits, rfl⟩ := fits_cons_iff.mp hboth
      exact ⟨back, fits, (mem_step h).mpr ⟨part, takes, by rwa [← List.append_assoc]⟩⟩

theorem fits_eq_true_iff {pattern text : List Char} :
    fits pattern text = true ↔ Fits ((readPart pattern).map Wildcard.ofChar) (readPart text) := by
  rw [fits, List.contains_iff_mem, mem_foldl_step (List.pairwise_singleton ..)]
  simp

end Steps

/-! ### What is read -/

section Reading

variable {a : List Char}

theorem readPart_append_of_not_mem (h : '\x00' ∉ a) (b : List Char) : readPart (a ++ b) = a ++ readPart b :=
  List.takeWhile_append_of_pos fun _ hc => bne_iff_ne.mpr fun heq => h (heq ▸ hc)

theorem readPart_eq_self (h : '\x00' ∉ a) : readPart a = a := by
  simpa [readPart] using readPart_append_of_not_mem h []

theorem readPart_append_of_mem (h : '\x00' ∈ a) (b : List Char) : readPart (a ++ b) = readPart a := by
  obtain ⟨front, back, rfl, hfront⟩ := List.eq_append_cons_of_mem h
  rw [List.append_assoc, readPart_append_of_not_mem hfront, readPart_append_of_not_mem hfront]
  rfl

end Reading

/-! ### Queries -/

/-- A part of what is read of the text fits what is read of the query, blanks around the query left out. If not all of
    the query is read, nor is the run behind it, and the part has to stand at the end. -/
def Meets (query text : String) : Prop :=
  ∃ part, part <:+: readPart text.toList ∧ ('\x00' ∈ query.toList → part <:+ readPart text.toList) ∧
    Fits ((readPart (trim query.toList)).map Wildcard.ofChar) part

/-- Whether the query, blanks around it left out, stands in what is read of the text, letters of ASCII being the same in
    both cases. -/
def mentions (query text : String) : Bool :=
  occursIn ((trim query.toList).map letter) ((readPart text.toList).map letter)

/-- Whether the query has no wildcards, blanks around it left out. -/
def isPlain (query : String) : Bool := !(trim query.toList).contains '%' && !(trim query.toList).contains '_'

section Queries

variable {query text : String}

theorem readPart_term :
    readPart (term query).toList =
      '%' :: (readPart (trim query.toList) ++ if '\x00' ∈ query.toList then [] else ['%']) := by
  have hterm : (term query).toList = ['%'] ++ (trim query.toList ++ ['%']) := by simp [term]
  have hmem : '\x00' ∈ trim query.toList ↔ '\x00' ∈ query.toList := mem_trim_iff (by decide)
  rw [hterm, readPart_append_of_not_mem (by decide), List.singleton_append]
  split
  · next h => rw [readPart_append_of_mem (hmem.mpr h), List.append_nil]
  · next h =>
    have h := mt hmem.mp h
    rw [readPart_append_of_not_mem h, readPart_eq_self h]
    rfl

theorem fits_term_iff : fits (term query).toList text.toList = true ↔ Meets query text := by
  rw [fits_eq_true_iff, readPart_term, Meets]
  split
  · next h =>
    rw [List.append_nil, List.map_cons, show Wildcard.ofChar '%' = .anyRun from rfl, fits_behind_run_iff]
    refine exists_congr fun part => ⟨fun ⟨hend, fits⟩ => ⟨hend.isInfix, fun _ => hend, fits⟩, fun ⟨_, hend, fits⟩ => ?_⟩
    exact ⟨hend h, fits⟩
  · next h =>
    rw [List.map_cons, List.map_append, show Wildcard.ofChar '%' = .anyRun from rfl]
    refine fits_between_runs_iff.trans (exists_congr fun part => and_congr_right fun _ => ?_)
    exact (and_iff_right fun hmem => absurd hmem h).symm

/-- Nothing is read behind U+0000, so the run that ends a pattern does not count. -/
example : fits (term "ab\x00.x").toList "cab".toList = true ∧ fits (term "ab\x00.x").toList "abc".toList = false := by
  decide

/-- The empty query asks for nothing, so it is met by every text. -/
theorem meets_empty (text : String) : Meets "" text := ⟨[], List.nil_infix, fun _ => List.nil_suffix, .nil⟩

theorem found_iff {texts : List String} (hne : texts ≠ []) :
    found (some query) texts = true ↔ ∃ text ∈ texts, Meets query text := by
  simp only [found, Bool.or_eq_true, decide_eq_true_eq, List.any_eq_true, fits_term_iff]
  refine or_iff_right_of_imp ?_
  rintro rfl
  exact ⟨texts.head hne, List.head_mem hne, meets_empty _⟩

/-- Whether a condition holds of texts, one for each of its parameters: it is empty, or one of the texts fits the
    parameter in its place. -/
def holds (condition : String × List String) (texts : List String) : Bool :=
  condition.1.isEmpty || (condition.2.zip texts).any fun pair => fits pair.1.toList pair.2.toList

/-- The condition of a query on some columns holds of the rows that are found by their texts in these columns. -/
theorem holds_clause (query : Option String) (columns : List String) (value : String → String) :
    holds (clause query columns) (columns.map value) = found query (columns.map value) := by
  have hcolumns (pattern : String) :
      (((columns.map fun _ => pattern).zip (columns.map value)).any fun pair => fits pair.1.toList pair.2.toList) =
        (columns.map value).any fun text => fits pattern.toList text.toList := by
    rw [List.zip_map', List.any_map, List.any_map]
    rfl
  match query with
  | none => rfl
  | some query =>
    by_cases hempty : query = ""
    · subst hempty
      rfl
    · have hclause : clause (some query) columns =
          (" WHERE " ++ " OR ".intercalate (columns.map (· ++ " LIKE ?")), columns.map fun _ => term query) := by
        unfold clause
        split <;> simp_all
      have htext : (" WHERE " ++ " OR ".intercalate (columns.map (· ++ " LIKE ?"))).isEmpty = false := by
        simp
      simp only [hclause, holds, htext, hcolumns, found, hempty, decide_false]

/-- Text of the same letters fits a query, whatever wildcards are in it. -/
theorem fits_of_map_letter_eq {needle part : List Char} (h : part.map letter = needle.map letter) :
    Fits (needle.map Wildcard.ofChar) part := by
  induction needle generalizing part with
  | nil =>
    rw [List.map_eq_nil_iff.mp h]
    exact .nil
  | cons c needle ih =>
    obtain ⟨d, part, rfl, hd, hrest⟩ := List.map_eq_cons_iff.mp h
    have takes : (Wildcard.ofChar c).Takes [d] := by
      unfold Wildcard.ofChar
      split
      · trivial
      · split
        · exact ⟨d, rfl⟩
        · exact ⟨d, rfl, beq_iff_eq.mpr hd.symm⟩
    exact .cons takes (ih hrest)

/-- A query without wildcards is fitted by nothing else. -/
theorem map_letter_eq_of_fits {needle part : List Char} (hrun : '%' ∉ needle) (hone : '_' ∉ needle)
    (h : Fits (needle.map Wildcard.ofChar) part) : part.map letter = needle.map letter := by
  induction needle generalizing part with
  | nil => rw [fits_nil_iff.mp h]
  | cons c needle ih =>
    simp only [List.mem_cons, not_or] at hrun hone
    have hexact : Wildcard.ofChar c = .exactly c := by
      rw [Wildcard.ofChar, if_neg (Ne.symm hrun.1), if_neg (Ne.symm hone.1)]
    rw [List.map_cons, hexact] at h
    obtain ⟨-, rest, ⟨d, rfl, hd⟩, fits, rfl⟩ := fits_cons_iff.mp h
    rw [List.singleton_append, List.map_cons, List.map_cons, ih hrun.2 hone.2 fits, ← beq_iff_eq.mp hd]

theorem mentions_iff :
    mentions query text = true ↔
      ∃ part, part <:+: readPart text.toList ∧ part.map letter = (trim query.toList).map letter := by
  rw [mentions, occursIn_iff_isInfix]
  constructor
  · rintro ⟨front, back, heq⟩
    obtain ⟨rest, tail, hrest, hfront, -⟩ := List.map_eq_append_iff.mp heq.symm
    obtain ⟨head, part, rfl, -, hpart⟩ := List.map_eq_append_iff.mp hfront
    exact ⟨part, ⟨head, tail, hrest.symm⟩, hpart⟩
  · rintro ⟨part, hpart, heq⟩
    exact heq ▸ hpart.map letter

/-- All of the query is read if it has no U+0000. -/
theorem meets_iff_of_not_mem (hread : '\x00' ∉ query.toList) :
    Meets query text ↔
      ∃ part, part <:+: readPart text.toList ∧ Fits ((trim query.toList).map Wildcard.ofChar) part := by
  rw [Meets, readPart_eq_self (mt (mem_trim_iff (by decide)).mp hread)]
  exact exists_congr fun part => and_congr_right fun _ => and_iff_right fun hmem => absurd hmem hread

theorem meets_of_mentions (hread : '\x00' ∉ query.toList) (h : mentions query text = true) : Meets query text := by
  obtain ⟨part, hpart, heq⟩ := mentions_iff.mp h
  exact (meets_iff_of_not_mem hread).mpr ⟨part, hpart, fits_of_map_letter_eq heq⟩

theorem meets_iff_mentions (hread : '\x00' ∉ query.toList) (h : isPlain query = true) :
    Meets query text ↔ mentions query text = true := by
  refine ⟨fun hmeets => ?_, meets_of_mentions hread⟩
  obtain ⟨part, hpart, fits⟩ := (meets_iff_of_not_mem hread).mp hmeets
  simp only [isPlain, Bool.and_eq_true, Bool.not_eq_true', List.contains_eq_mem, decide_eq_false_iff_not] at h
  exact mentions_iff.mpr ⟨part, hpart, map_letter_eq_of_fits h.1 h.2 fits⟩

end Queries

end AcornCatalog.Search

namespace AcornCatalog.Store

open Search

/-! ### What a search selects -/

section Selection

variable {α : Type} {w : Searching α} {query kind : Option String} {rows : List α}

/-- A search selects some rows: it counts them, every listing that may be asked for shows its share of them from the
    latest on, and each is shown at some offset, as long as their number can be written as one. -/
structure Selects (createdAt : α → String) (query kind : Option String) (count : Except Fault Nat)
    (list : Listing → Except Fault (List α)) (selected : List α) : Prop where
  counted : count = .ok selected.length
  listed : ∀ limit offset : Int, 1 ≤ limit → limit ≤ 100 → storable (some offset) = true →
    list { limit, offset, query, kind } =
      .ok (((latestFirst createdAt selected).drop offset.toNat).take limit.toNat)
  reached : storable (some (selected.length : Int)) = true → ∀ r ∈ selected,
    ∃ offset page, list { limit := 1, offset, query, kind } = .ok page ∧ r ∈ page

theorem check_eq_ok {l : Listing} (hlow : 1 ≤ l.limit) (hhigh : l.limit ≤ 100) : l.check = .ok () := by
  have hlow : ¬l.limit < 1 := by omega
  have hhigh : ¬(maxPageSize : Int) < l.limit := by
    simp only [maxPageSize]
    omega
  rw [Listing.check, if_neg hlow, if_neg hhigh]

theorem checkPattern_eq_ok {compared : List α} (h : overlong query compared = false) :
    checkPattern query compared = .ok () := if_neg (Bool.not_eq_true _ ▸ h)

theorem checkPattern_eq_error {compared : List α} (h : overlong query compared = true) :
    checkPattern query compared = .error (.engine .longPattern) := if_pos h

theorem count_eq :
    w.count query kind (some rows) = (checkPattern query (rows.filter (w.allowed kind))).map fun _ =>
      (rows.filter (w.selects query kind)).length := by
  rw [← List.countP_eq_length_filter]
  rfl

theorem list_eq {l : Listing} (hcheck : l.check = .ok ()) (hoffset : l.checkOffset = .ok ()) :
    w.list l (some rows) = (checkPattern l.query (rows.filter (w.allowed l.kind))).map fun _ =>
      l.cut (latestFirst w.createdAt (rows.filter (w.selects l.query l.kind))) := by
  simp only [Searching.list, demand, hcheck, hoffset]
  rfl

theorem list_eq_ok {l : Listing} (hcheck : l.check = .ok ()) (hoffset : l.checkOffset = .ok ())
    (hfit : overlong l.query (rows.filter (w.allowed l.kind)) = false) :
    w.list l (some rows) = .ok (l.cut (latestFirst w.createdAt (rows.filter (w.selects l.query l.kind)))) := by
  rw [list_eq hcheck hoffset, checkPattern_eq_ok hfit]
  rfl

theorem selects_filter (hfit : overlong query (rows.filter (w.allowed kind)) = false) :
    Selects w.createdAt query kind (w.count query kind (some rows)) (w.list · (some rows))
      (rows.filter (w.selects query kind)) := by
  have hlisted (limit offset : Int) (hlow : 1 ≤ limit) (hhigh : limit ≤ 100)
      (hoffset : storable (some offset) = true) :
      w.list { limit, offset, query, kind } (some rows) = .ok (((latestFirst w.createdAt
        (rows.filter (w.selects query kind))).drop offset.toNat).take limit.toNat) := by
    have hcheck : Listing.check { limit, offset, query, kind } = .ok () := check_eq_ok hlow hhigh
    exact list_eq_ok hcheck (if_pos hoffset) hfit
  have hcount : w.count query kind (some rows) = .ok (rows.filter (w.selects query kind)).length := by
    rw [count_eq, checkPattern_eq_ok hfit]
    rfl
  refine ⟨hcount, hlisted, fun hfit r hr => ?_⟩
  -- the row is shown alone at its place in the order of listings
  have hperm : (latestFirst w.createdAt (rows.filter (w.selects query kind))).Perm _ := List.mergeSort_perm ..
  obtain ⟨n, hn, hget⟩ := List.getElem_of_mem (hperm.mem_iff.mpr hr)
  have hoffset : storable (some (n : Int)) = true := by
    have hle : n < (rows.filter (w.selects query kind)).length := hperm.length_eq ▸ hn
    simp only [storable, Option.all_some, Bool.and_eq_true, decide_eq_true_eq] at hfit ⊢
    omega
  refine ⟨n, _, hlisted 1 n (Int.le_refl _) (by decide) hoffset, ?_⟩
  rw [Int.toNat_natCast, List.drop_eq_getElem_cons hn, hget]
  exact List.mem_cons_self ..

/-- The selected rows are those that are allowed and meet the query in one of their texts. If all of the query is read,
    they take in all that mention it, and are just these if it has no wildcards. -/
structure CompleteAndExact (query : String) (texts : α → List String) (allowed : α → Bool) (rows selected : List α) :
    Prop where
  within : selected.Sublist rows
  mem_iff : ∀ r, r ∈ selected ↔ r ∈ rows ∧ allowed r = true ∧ ∃ text ∈ texts r, Meets query text
  complete : '\x00' ∉ query.toList →
    (rows.filter fun r => allowed r && (texts r).any (mentions query)).Sublist selected
  exact : '\x00' ∉ query.toList → isPlain query = true →
    selected = rows.filter fun r => allowed r && (texts r).any (mentions query)

theorem completeAndExact_filter {query : String} (hne : ∀ r, w.texts r ≠ []) :
    CompleteAndExact query w.texts (w.allowed kind) rows (rows.filter (w.selects (some query) kind)) := by
  refine ⟨List.filter_sublist, fun r => ?_, fun hread => ?_, fun hread hplain => ?_⟩
  · rw [List.mem_filter, Searching.selects, Bool.and_eq_true, found_iff (hne r), and_comm (a := ∃ _, _)]
  · refine List.monotone_filter_right rows fun r h => ?_
    obtain ⟨hallowed, hany⟩ := Bool.and_eq_true_iff.mp h
    obtain ⟨text, hmem, htext⟩ := List.any_eq_true.mp hany
    exact Bool.and_eq_true_iff.mpr ⟨(found_iff (hne r)).mpr ⟨text, hmem, meets_of_mentions hread htext⟩, hallowed⟩
  · refine List.filter_congr fun r _ => ?_
    have hfound : found (some query) (w.texts r) = (w.texts r).any (mentions query) := by
      rw [Bool.eq_iff_iff, found_iff (hne r), List.any_eq_true]
      exact exists_congr fun text => and_congr_right fun _ => meets_iff_mentions hread hplain
    rw [Searching.selects, hfound, Bool.and_comm]

/-- A query that is not too long for the rows of a table selects what the search of the table says. -/
theorem exists_selects {query : String} (hne : ∀ r, w.texts r ≠ [])
    (hfit : overlong (some query) (rows.filter (w.allowed kind)) = false) :
    ∃ selected, Selects w.createdAt (some query) kind (w.count (some query) kind (some rows)) (w.list · (some rows))
      selected ∧ CompleteAndExact query w.texts (w.allowed kind) rows selected :=
  ⟨_, selects_filter hfit, completeAndExact_filter hne⟩

end Selection

/-- In every store, searching for a query finds all rows that mention it, blanks around it left out and whatever the
    case of its letters, and no others if it has no wildcards: items by their names and sources and of the kind asked
    for, theorems by their names, heads, proofs and whole texts, definitions by their names and texts. Only a pattern
    that is too long for the rows there are is not searched for. -/
theorem search_complete_and_exact (s : Store) (query : String) (kind : Option String) :
    (∀ rows, s.items = some rows → overlong (some query) (rows.filter (ofKind kind)) = false → ∃ selected,
      Selects (·.createdAt) (some query) kind (s.itemCount (some query) kind) (fun l => s.listItems l) selected ∧
        CompleteAndExact query (fun r => [r.name, r.source]) (ofKind kind) rows selected) ∧
    (∀ rows, s.theorems = some rows → overlong (some query) rows = false → ∃ selected,
      Selects (·.createdAt) (some query) none (s.theoremCount (some query)) (fun l => s.listTheorems l) selected ∧
        CompleteAndExact query (fun r => [r.name, r.head, r.proof, r.raw]) (fun _ => true) rows selected) ∧
    ∀ rows, s.definitions = some rows → overlong (some query) rows = false → ∃ selected,
      Selects (·.createdAt) (some query) none (s.definitionCount (some query)) (fun l => s.listDefinitions l) selected ∧
        CompleteAndExact query (fun r => [r.name, r.definition]) (fun _ => true) rows selected := by
  refine ⟨fun rows hrows hfit => ?_, fun rows hrows hfit => ?_, fun rows hrows hfit => ?_⟩
  · simp only [itemCount, listItems, hrows]
    exact exists_selects (w := itemSearch) (fun _ => List.cons_ne_nil _ _) hfit
  · simp only [theoremCount, listTheorems, hrows]
    have hall : rows.filter (theoremSearch.allowed none) = rows := List.filter_true rows
    exact exists_selects (w := theoremSearch) (fun _ => List.cons_ne_nil _ _) (hall.symm ▸ hfit)
  · simp only [definitionCount, listDefinitions, hrows]
    have hall : rows.filter (definitionSearch.allowed none) = rows := List.filter_true rows
    exact exists_selects (w := definitionSearch) (fun _ => List.cons_ne_nil _ _) (hall.symm ▸ hfit)

/-- Of two items the one that has the query in its source, in other letters, is the one that is selected. -/
theorem search_complete_and_exact_letters :
    let row := fun (id : Nat) (name source : String) => ItemRow.mk id none name none "define" source "nat.ac" none "t"
    let s : Store := { items := some [row 1 "Nat.mul" "define mul(a: Nat)", row 2 "Nat.plus" "Nat.ADD(a, b)"] }
    ∃ selected, Selects (·.createdAt) (some " add ") (some "define") (s.itemCount (some " add ") (some "define"))
      (fun l => s.listItems l) selected ∧ selected = [row 2 "Nat.plus" "Nat.ADD(a, b)"] := by
  intro row s
  obtain ⟨selected, hselects, hexact⟩ := (search_complete_and_exact s " add " (some "define")).1 _ rfl (by decide)
  exact ⟨selected, hselects, (hexact.exact (by decide) (by decide)).trans (by decide)⟩

end AcornCatalog.Store
