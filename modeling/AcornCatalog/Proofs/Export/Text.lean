import AcornCatalog.Proofs.Check.Report
import AcornCatalog.Proofs.Export

/-! Mistakes in the source text of an export. The texts of entries stand one below the other, under headings that are
meant as comments. A line feed in a name or a path ends such a comment early, and what stands behind it is read as part
of the program: so a text made of entries without mistakes can have mistakes, and it is just what the headings say that
decides about it. -/

namespace AcornCatalog.Export

open Check Dependency Store

/-! ### Headings -/

theorem feed_not_mem_repr (n : Nat) : '\n' ∉ n.repr.toList := by
  rw [Nat.toList_repr]
  intro h
  have := Nat.isDigit_of_mem_toDigits (by decide) (by decide) h
  cases this

theorem feed_not_mem_toString (n : Int) : '\n' ∉ (toString n).toList := by
  cases n with
  | ofNat n => exact feed_not_mem_repr n
  | negSucc n =>
    change '\n' ∉ ("-" ++ (n + 1).repr).toList
    rw [String.toList_append, List.mem_append, not_or]
    exact ⟨by decide, feed_not_mem_repr (n + 1)⟩

theorem isValid_of_mem_heading (e : Export) : ∀ line ∈ e.heading, (report line).isValid = true := by
  intro line hline
  simp only [heading, List.mem_cons, List.not_mem_nil, or_false] at hline
  rcases hline with rfl | rfl | rfl | rfl
  · exact isValid_report_comment rfl (by decide)
  · exact isValid_report_comment rfl (by decide)
  · refine isValid_report_comment ?_ ?_
    · rw [String.toList_append]
      rfl
    · rw [String.toList_append, List.mem_append, not_or]
      exact ⟨by decide, feed_not_mem_repr _⟩
  · rfl

/-- An entry whose name and file are told on one line each. -/
structure OnOneLine (entry : Exported) : Prop where
  name : '\n' ∉ entry.name.toList
  file : ∀ file ∈ entry.origin.1, '\n' ∉ file.toList

theorem isValid_of_mem_entry_heading {entry : Exported} (h : OnOneLine entry) :
    ∀ line ∈ entry.heading, (report line).isValid = true := by
  intro line hline
  simp only [Exported.heading] at hline
  rcases List.mem_append.mp hline with hline | hline
  · obtain rfl := List.mem_singleton.mp hline
    have htype : '\n' ∉ entry.type.toList := by
      cases entry with
      | statement row => exact (by decide : '\n' ∉ "theorem".toList)
      | definition row => exact (by decide : '\n' ∉ "definition".toList)
    refine isValid_report_comment ?_ ?_
    · simp only [String.toList_append, List.append_assoc]
      rfl
    · simp only [String.toList_append, List.mem_append, not_or]
      exact ⟨⟨⟨by decide, htype⟩, by decide⟩, h.name⟩
  · split at hline
    · cases hline
    · cases hline
    · next file hempty hfile =>
      obtain rfl := List.mem_singleton.mp hline
      have hline : '\n' ∉ ((entry.origin.2.map toString).getD "None").toList := by
        cases entry.origin.2 with
        | none => decide
        | some n => exact feed_not_mem_toString n
      refine isValid_report_comment ?_ ?_
      · simp only [String.toList_append, List.append_assoc]
        rfl
      · simp only [String.toList_append, List.mem_append, not_or]
        exact ⟨⟨⟨by decide, h.file file hfile⟩, by decide⟩, hline⟩

/-! ### The whole text -/

theorem mistaken_append (pieces more : List String) : mistaken (pieces ++ more) = mistaken pieces ++ mistaken more :=
  List.filter_append ..

theorem mistaken_eq_nil {pieces : List String} (h : ∀ piece ∈ pieces, (report piece).isValid = true) :
    mistaken pieces = [] :=
  List.filter_eq_nil_iff.mpr fun piece hpiece => by simp [h piece hpiece]

/-- Under entries without mistakes only headings can have mistakes. -/
theorem mistaken_lines {entries : List Exported} (h : ∀ entry ∈ entries, (report entry.text).isValid = true) :
    mistaken (entries.flatMap Exported.lines) = mistaken (entries.flatMap Exported.heading) := by
  induction entries with
  | nil => rfl
  | cons entry rest ih =>
    have hbody : mistaken [entry.text, ""] = [] := by
      refine mistaken_eq_nil fun piece hpiece => ?_
      rcases List.mem_cons.mp hpiece with rfl | hpiece
      · exact h entry (List.mem_cons_self ..)
      · rw [List.mem_singleton.mp hpiece]
        rfl
    rw [List.flatMap_cons, List.flatMap_cons, Exported.lines, mistaken_append, mistaken_append, mistaken_append, hbody,
      List.append_nil, ih fun e he => h e (List.mem_cons_of_mem _ he)]

section Text

variable {e : Export} (h : ∀ entry ∈ e.entries, (report entry.text).isValid = true)
include h

/-- If no heading ends within a comment, the text has mistakes exactly if the headings alone have. -/
theorem isValid_text_iff
    (hopen : ∀ entry ∈ e.entries, ∀ line ∈ entry.heading, endsInComment line.toList = false) :
    (report e.text).isValid = true ↔
      (report ("\n".intercalate (e.entries.flatMap Exported.heading))).isValid = true := by
  have closed {piece : String} (hvalid : (report piece).isValid = true) : endsInComment piece.toList = false :=
    (isValid_report_iff.mp hvalid).1
  have hheadings : ∀ piece ∈ e.entries.flatMap Exported.heading, endsInComment piece.toList = false := by
    intro piece hpiece
    obtain ⟨entry, hentry, hline⟩ := List.mem_flatMap.mp hpiece
    exact hopen entry hentry piece hline
  have hpieces : ∀ piece ∈ e.heading ++ e.entries.flatMap Exported.lines, endsInComment piece.toList = false := by
    intro piece hpiece
    rcases List.mem_append.mp hpiece with hpiece | hpiece
    · exact closed (isValid_of_mem_heading e piece hpiece)
    · obtain ⟨entry, hentry, hline⟩ := List.mem_flatMap.mp hpiece
      rcases List.mem_append.mp hline with hline | hline
      · exact hopen entry hentry piece hline
      · rcases List.mem_cons.mp hline with rfl | hline
        · exact closed (h entry hentry)
        · rw [List.mem_singleton.mp hline]
          rfl
  rw [text, isValid_report_mistaken hpieces, isValid_report_mistaken hheadings, mistaken_append,
    mistaken_eq_nil (isValid_of_mem_heading e), mistaken_lines h]
  rfl

theorem isValid_text_of_onOneLine (hone : ∀ entry ∈ e.entries, OnOneLine entry) : (report e.text).isValid = true := by
  have hvalid : ∀ piece ∈ e.entries.flatMap Exported.heading, (report piece).isValid = true := by
    intro piece hpiece
    obtain ⟨entry, hentry, hline⟩ := List.mem_flatMap.mp hpiece
    exact isValid_of_mem_entry_heading (hone entry hentry) piece hline
  rw [isValid_text_iff h fun entry hentry line hline =>
    (isValid_report_iff.mp (isValid_of_mem_entry_heading (hone entry hentry) line hline)).1]
  exact isValid_report_intercalate hvalid

end Text

/-- After any calls that leave only theorems and definitions without mistakes, the source text of the export has
    mistakes exactly if its headings alone have, as long as none of them ends within a comment. So it has none if names
    and files are told on one line each. -/
theorem text_isValid_iff (calls : List Call) :
    ∃ theorems definitions e, (withStatements.after calls).theorems = some theorems ∧
      (withStatements.after calls).definitions = some definitions ∧ ofStore (withStatements.after calls) = .ok e ∧
      ((∀ row ∈ theorems, (report row.raw).isValid = true) →
        (∀ row ∈ definitions, (report row.definition).isValid = true) →
        ((∀ entry ∈ e.entries, ∀ line ∈ entry.heading, endsInComment line.toList = false) →
          ((report e.text).isValid = true ↔
            (report ("\n".intercalate (e.entries.flatMap Exported.heading))).isValid = true)) ∧
        ((∀ entry ∈ e.entries, OnOneLine entry) → (report e.text).isValid = true)) := by
  obtain ⟨⟨theorems, hts, -⟩, ⟨definitions, hds, -⟩, table, hdeps⟩ := statementsSound_after calls
  have hof : ofStore (withStatements.after calls) =
      .ok (ofContents ⟨earliestFirst (·.createdAt) theorems, earliestFirst (·.createdAt) definitions, table.rows⟩) := by
    simp [ofStore, contents, hts, hds, hdeps, demand, bind, Except.bind, pure, Except.pure]
  refine ⟨theorems, definitions, _, hts, hds, hof, fun htheorems hdefinitions => ?_⟩
  have hentries : ∀ entry ∈ (ofContents ⟨earliestFirst (·.createdAt) theorems,
      earliestFirst (·.createdAt) definitions, table.rows⟩).entries, (report entry.text).isValid = true := by
    intro entry hentry
    rcases List.mem_append.mp (mem_of_mem_order hentry) with hentry | hentry
    · obtain ⟨row, hrow, rfl⟩ := List.mem_map.mp hentry
      exact htheorems row ((earliestFirst_perm _ theorems).mem_iff.mp hrow)
    · obtain ⟨row, hrow, rfl⟩ := List.mem_map.mp hentry
      exact hdefinitions row ((earliestFirst_perm _ definitions).mem_iff.mp hrow)
  exact ⟨isValid_text_iff hentries, isValid_text_of_onOneLine hentries⟩

/-- A theorem and a definition without mistakes give a text without mistakes, but a line feed in the name of the theorem
    lets a bracket out of its heading. -/
theorem text_isValid_iff_line_feed :
    let calls := fun (name : String) =>
      [Call.addTheorem "1"
         { name := some name, head := some "", proof := some "", raw := some "theorem a \x7b true \x7d" },
       Call.addDefinition "2" { name := some "d", definition := some "define d(x: Nat) -> Nat \x7b x \x7d" }]
    (∃ e, ofStore (withStatements.after (calls "a")) = .ok e ∧ e.entries.length = 2 ∧
      (report e.text).isValid = true) ∧
    ∃ e, ofStore (withStatements.after (calls "a\n\x7d")) = .ok e ∧ e.entries.length = 2 ∧
      (report e.text).isValid = false := by
  intro calls
  let statement (name : String) : TheoremRow := ⟨1, name, "", "", "theorem a \x7b true \x7d", none, none, "1"⟩
  let definition : DefinitionRow := ⟨1, "d", "define d(x: Nat) -> Nat \x7b x \x7d", none, none, none, "2"⟩
  have hof (name : String) :
      ofStore (withStatements.after (calls name)) = .ok (ofContents ⟨[statement name], [definition], []⟩) := by
    have hstore : withStatements.after (calls name) =
        { withStatements with theorems := some [statement name], definitions := some [definition] } := rfl
    rw [ofStore, contents, hstore]
    simp [demand, earliestFirst, withStatements, bind, Except.bind, pure, Except.pure]
  constructor
  · obtain ⟨theorems, definitions, e, hts, hds, he, hvalid⟩ := text_isValid_iff (calls "a")
    have hentries : e.entries = [.statement (statement "a"), .definition definition] := by
      cases he.symm.trans (hof "a")
      rw [ofContents, order_eq, settledNames_eq]
      decide +kernel
    cases hts
    cases hds
    refine ⟨e, he, by rw [hentries]; rfl, (hvalid (by decide) (by decide)).2 fun entry hentry => ?_⟩
    rw [hentries] at hentry
    rcases List.mem_pair.mp hentry with rfl | rfl
    · exact ⟨by decide, fun file hfile => by cases hfile⟩
    · exact ⟨by decide, fun file hfile => by cases hfile⟩
  · obtain ⟨theorems, definitions, e, hts, hds, he, hvalid⟩ := text_isValid_iff (calls "a\n\x7d")
    have hentries : e.entries = [.statement (statement "a\n\x7d"), .definition definition] := by
      cases he.symm.trans (hof "a\n\x7d")
      rw [ofContents, order_eq, settledNames_eq]
      decide +kernel
    cases hts
    cases hds
    rw [hentries] at hvalid
    have hiff := (hvalid (by decide) (by decide)).1 (by decide)
    refine ⟨e, he, by rw [hentries]; rfl, Bool.eq_false_iff.mpr fun htext => ?_⟩
    exact absurd (hiff.mp htext) (by decide)

end AcornCatalog.Export
