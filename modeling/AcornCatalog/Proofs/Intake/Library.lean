import AcornCatalog.Proofs.Intake.Storing
import Mathlib.Data.List.Forall2

/-! Taking a whole library into an empty store. If no file declares a name twice, every declaration is stored: names
have no colon, so the text of which a uuid is the digest tells path and name, and paths are told apart as they are
written. -/

namespace AcornCatalog.Intake

open Text Store SourceTree

/-! ### Uuids -/

/-- The first sixteen digits of the digest of a text. -/
def shortDigest (text : String) : String := String.ofList ((Sha256.hexDigest text).take 16)

/-- The text of which the uuid of a declaration is the digest. -/
def uuidText (file : SourcePath) (name : String) : String := file.text ++ "::" ++ name

theorem uuidOf_eq (file : SourcePath) (name : String) : uuidOf file name = shortDigest (uuidText file name) := rfl

/-- A path may have colons in it, but behind the last one stands the name. -/
theorem uuidText_inj {p q : SourcePath} {n m : String} (hn : ':' ∉ n.toList) (hm : ':' ∉ m.toList)
    (h : uuidText p n = uuidText q m) : p.text = q.text ∧ n = m := by
  have hname : n = m := by
    have hends := congrArg (fun s => cut ':' s.toList.reverse) h
    simp only [uuidText, String.toList_append, List.reverse_append] at hends
    have hcolons : "::".toList.reverse = [':', ':'] := rfl
    simp only [hcolons, List.cons_append] at hends
    rw [cut_append_sep (by simpa using hn), cut_append_sep (by simpa using hm)] at hends
    exact String.toList_inj.mp (List.reverse_injective (List.cons.inj hends).1)
  subst hname
  refine ⟨?_, rfl⟩
  have hpaths := congrArg String.toList h
  simp only [uuidText, String.toList_append] at hpaths
  exact String.toList_inj.mp (List.append_cancel_right (List.append_cancel_right hpaths))

/-! ### Runs that store everything -/

/-- Two items that may stand in one table. -/
def Apart (a b : NewItem) : Prop := a.uuid ≠ b.uuid ∧ (a.filePath = b.filePath → a.name ≠ b.name)

theorem not_clashes_snoc {rows : List ItemRow} {row : ItemRow} {a b : NewItem} (hrow : Holds a row) (hapart : Apart a b)
    (hfree : ¬Clashes rows b) : ¬Clashes (rows ++ [row]) b := by
  rintro (⟨r, hr, hsome, huuid⟩ | ⟨r, hr, hfile, hname⟩)
  · rcases List.mem_append.mp hr with hr | hr
    · exact hfree (Or.inl ⟨r, hr, hsome, huuid⟩)
    · obtain rfl := List.mem_singleton.mp hr
      exact hapart.1 (hrow.uuid.symm.trans huuid)
  · rcases List.mem_append.mp hr with hr | hr
    · exact hfree (Or.inr ⟨r, hr, hfile, hname⟩)
    · obtain rfl := List.mem_singleton.mp hr
      exact hapart.2 (hrow.filePath.trans hfile) (hrow.name.trans hname)

/-- What is put forward for a declaration whose file lies in the catalog. -/
def entry (root : SourcePath) (d : Declaration) : NewItem :=
  { name := some d.name, kind := some d.item.kind.label, source := some d.item.source, uuid := d.item.uuid,
    identifierName := d.item.identifierName,
    filePath := d.item.location.map fun l => SourcePath.text ⟨0, l.file.parts.drop root.parts.length⟩,
    lineNumber := d.item.location.map (·.line) }

theorem offer?_eq_entry {root : SourcePath} {d : Declaration} {l : Location} {inner : List String}
    (hl : d.item.location = some l) (hfile : l.file = root.inside inner) :
    offer? root d.item l = some (entry root d) := by
  have hinner : l.file.parts.drop root.parts.length = inner := by
    rw [hfile]
    exact List.drop_left
  rw [offer?, entry, hl, Option.map_some, Option.map_some, hinner, hfile, SourcePath.relativeTo_inside]
  rfl

namespace Storing

variable {root : SourcePath} {clock : String} {ds : List Declaration} {t t' : Tally} {rows rows' : List ItemRow}

theorem rules (h : Storing root clock ds t rows t' rows') (hrules : ItemRules rows) : ItemRules rows' := by
  induction h with
  | done => exact hrules
  | stored place becomes later ih =>
    obtain ⟨new, -, -, hrow⟩ := becomes
    exact ih (hrules.snoc hrow)
  | refused place barred later ih => exact ih hrules

/-- If declarations may all stand in one table, and with the rows that are there, each becomes a row. -/
theorem all_stored (h : Storing root clock ds t rows t' rows')
    (hoffer : ∀ d ∈ ds, ∀ l, d.item.location = some l → offer? root d.item l = some (entry root d))
    (hrange : ∀ d ∈ ds, ¬OutOfRange (entry root d).lineNumber) (hfree : ∀ d ∈ ds, ¬Clashes rows (entry root d))
    (hapart : ds.Pairwise fun d e => Apart (entry root d) (entry root e)) :
    t'.skipped = t.skipped ∧ t'.failed = t.failed ∧
      ∃ new, rows' = rows ++ new ∧ List.Forall₂ (fun d row => Holds (entry root d) row) ds new := by
  induction h with
  | done => exact ⟨rfl, rfl, [], (List.append_nil _).symm, .nil⟩
  | @stored d ds l row t rows t' rows' place becomes later ih =>
    obtain ⟨new, hnew, -, hrow⟩ := becomes
    cases (hoffer d (List.mem_cons_self ..) l place).symm.trans hnew
    have hholds := (itemRow?_eq_some hrow).1
    rw [List.pairwise_cons] at hapart
    have hfree' : ∀ e ∈ ds, ¬Clashes (rows ++ [row]) (entry root e) := fun e he =>
      not_clashes_snoc hholds (hapart.1 e he) (hfree e (List.mem_cons_of_mem _ he))
    obtain ⟨hskipped, hfailed, more, rfl, hrows⟩ := ih (fun e he => hoffer e (List.mem_cons_of_mem _ he))
      (fun e he => hrange e (List.mem_cons_of_mem _ he)) hfree' hapart.2
    exact ⟨hskipped, hfailed, row :: more, by simp, .cons hholds hrows⟩
  | @refused d ds l r t rows t' rows' place barred later ih =>
    -- a barred declaration would be out of range or clash
    have hd : d ∈ d :: ds := List.mem_cons_self ..
    exact ((barred _ (hoffer d hd l place)).elim (hrange d hd) (hfree d hd)).elim

end Storing

/-! ### The declarations of a library -/

/-- What is known of a declaration that was read from the file of those components in the folder `root`, at the line of
    that number from zero. -/
structure Filed (root : SourcePath) (inner : List String) (number : Nat) (d : Declaration) : Prop where
  wellFormed : (root.inside inner).WellFormed
  readAt : d.item.ReadAt ⟨root.inside inner, number⟩
  uuid : d.item.uuid = some (uuidOf (root.inside inner) d.name)
  line : number < maxSize

/-- A row keeps what was read of a declaration. -/
structure Records (d : Declaration) (row : ItemRow) : Prop where
  name : row.name = d.name
  kind : row.kind = d.item.kind.label
  source : row.source = d.item.source
  line : row.lineNumber = d.item.location.map (·.line)

section Library

variable {files : List (String × List UInt8)} {root path : SourcePath} {inner inner' : List String} {number k : Nat}
  {d e : Declaration}

theorem filed_of_mem (hsize : ∀ f ∈ files, f.2.length ≤ maxSize)
    (hpath : path ∈ (ofFiles files).sources (libraryRoot root)) (hd : d ∈ (ofFiles files).declarationsIn path) :
    ∃ inner number, path = root.inside inner ∧ Filed root inner number d := by
  obtain ⟨bytes, hbytes, ⟨number, hnumber, hat⟩, huuid⟩ := SourceTree.declaredIn_of_mem hd
  obtain ⟨s, hs, hmem⟩ := mem_ofFiles hbytes
  obtain ⟨inner, hinner⟩ := eq_inside_of_mem_sources hpath
  rw [libraryRoot, SourcePath.inside_inside] at hinner
  subst hinner
  exact ⟨_, number, rfl, hs ▸ SourcePath.wellFormed_ofString s, hat, huuid, Nat.lt_of_lt_of_le hnumber (hsize _ hmem)⟩

theorem filed_of_mem_collect (hsize : ∀ f ∈ files, f.2.length ≤ maxSize)
    (hd : d ∈ (collect (libraryRoot root) (ofFiles files)).1) : ∃ inner number, Filed root inner number d := by
  rw [collect_eq] at hd
  obtain ⟨path, hpath, hd⟩ := List.mem_flatMap.mp hd
  obtain ⟨inner, number, -, hfiled⟩ := filed_of_mem hsize hpath hd
  exact ⟨inner, number, hfiled⟩

/-- Only the names of members have a dot in them, and these are kept whole. -/
theorem Filed.item_rename (h : Filed root inner number d) :
    (rename d).item = { d.item with identifierName := some (lastPart d.item.name) } := by
  rw [rename, Declaration.item_modify]
  cases hmember : d.item.kind.isQualifiedMember with
  | true => simp
  | false => simp [lastPart_of_not_mem (h.readAt.no_dot hmember)]

theorem Filed.entry_rename (h : Filed root inner number d) : entry root (rename d) =
    { name := some d.name, kind := some d.item.kind.label, source := some d.item.source,
      uuid := some (uuidOf (root.inside inner) d.name), identifierName := some (lastPart d.name),
      filePath := some (SourcePath.text ⟨0, inner⟩), lineNumber := some (number + 1) } := by
  have huuid : d.item.uuid = some (uuidOf (root.inside inner) d.item.name) := h.uuid
  have hinner : (root.inside inner).parts.drop root.parts.length = inner := List.drop_left
  simp [entry, Declaration.name, h.item_rename, h.readAt.location, Place.location, huuid, hinner]

theorem Filed.offer?_rename (h : Filed root inner number d) (l : Location) (hl : (rename d).item.location = some l) :
    offer? root (rename d).item l = some (entry root (rename d)) := by
  refine offer?_eq_entry hl (?_ : l.file = root.inside inner)
  rw [h.item_rename, h.readAt.location] at hl
  cases hl
  rfl

theorem Filed.not_outOfRange (h : Filed root inner number d) : ¬OutOfRange (entry root (rename d)).lineNumber := by
  rintro ⟨line, hline, hout⟩
  rw [h.entry_rename] at hline
  cases hline
  have := h.line
  unfold maxSize at this
  omega

theorem Filed.records (h : Filed root inner number d) {row : ItemRow} (hrow : Holds (entry root (rename d)) row) :
    Records d row := by
  rw [h.entry_rename] at hrow
  refine ⟨?_, ?_, ?_, ?_⟩
  · exact (Option.some.inj hrow.name).symm
  · exact (Option.some.inj hrow.kind).symm
  · exact (Option.some.inj hrow.source).symm
  · rw [hrow.lineNumber, h.readAt.location]
    rfl

/-- Declarations of two files, or of two names, may stand in one table. -/
theorem Filed.apart (hd : Filed root inner number d) (he : Filed root inner' k e)
    (hne : root.inside inner = root.inside inner' → d.name ≠ e.name)
    (hdigest : shortDigest (uuidText (root.inside inner) d.name) = shortDigest (uuidText (root.inside inner') e.name) →
      uuidText (root.inside inner) d.name = uuidText (root.inside inner') e.name) :
    Apart (entry root (rename d)) (entry root (rename e)) := by
  rw [hd.entry_rename, he.entry_rename]
  constructor
  · intro huuid
    rw [Option.some.injEq, uuidOf_eq, uuidOf_eq] at huuid
    obtain ⟨htext, hname⟩ := uuidText_inj hd.readAt.no_colon he.readAt.no_colon (hdigest huuid)
    exact hne (hd.wellFormed.eq_of_text_eq he.wellFormed htext) hname
  · intro hfile hname
    have hinner := hd.wellFormed.of_inside.eq_of_text_eq he.wellFormed.of_inside (Option.some.inj hfile)
    cases hinner
    exact hne rfl (Option.some.inj hname)

/-- The texts of which the uuids of the library of a catalog are the digests. -/
def uuidTexts (root : SourcePath) (tree : SourceTree) : List String :=
  (tree.sources (libraryRoot root)).flatMap fun path =>
    ((tree.declarationsIn path).map Declaration.name).map (uuidText path)

theorem mem_uuidTexts {tree : SourceTree} (hpath : path ∈ tree.sources (libraryRoot root))
    (hd : d ∈ tree.declarationsIn path) : uuidText path d.name ∈ uuidTexts root tree :=
  List.mem_flatMap.mpr ⟨path, hpath, List.mem_map_of_mem (List.mem_map_of_mem hd)⟩

/-- If no file declares a name twice, all declarations of a library may stand in one table. -/
theorem pairwise_apart (hsize : ∀ f ∈ files, f.2.length ≤ maxSize)
    (hnames : ∀ path ∈ (ofFiles files).sources (libraryRoot root),
      (((ofFiles files).declarationsIn path).map Declaration.name).Nodup)
    (hdigest : ∀ a ∈ uuidTexts root (ofFiles files), ∀ b ∈ uuidTexts root (ofFiles files),
      shortDigest a = shortDigest b → a = b) :
    (collect (libraryRoot root) (ofFiles files)).1.Pairwise fun d e =>
      Apart (entry root (rename d)) (entry root (rename e)) := by
  have hapart {p q : SourcePath} {d e : Declaration} (hp : p ∈ (ofFiles files).sources (libraryRoot root))
      (hd : d ∈ (ofFiles files).declarationsIn p) (hq : q ∈ (ofFiles files).sources (libraryRoot root))
      (he : e ∈ (ofFiles files).declarationsIn q) (hne : p = q → d.name ≠ e.name) :
      Apart (entry root (rename d)) (entry root (rename e)) := by
    obtain ⟨_, _, rfl, hfiled⟩ := filed_of_mem hsize hp hd
    obtain ⟨_, _, rfl, hfiled'⟩ := filed_of_mem hsize hq he
    exact hfiled.apart hfiled' hne (hdigest _ (mem_uuidTexts hp hd) _ (mem_uuidTexts hq he))
  rw [collect_eq, List.pairwise_flatMap]
  constructor
  · intro p hp
    exact (List.pairwise_map.mp (hnames p hp)).imp_of_mem fun hd he hne => hapart hp hd hp he fun _ => hne
  · exact (nodup_sources (libraryRoot root) (ofFiles files)).imp_of_mem fun hp hq hne d hd e he =>
      hapart hp hd hq he fun heq => absurd heq hne

end Library

/-! ### Complete runs -/

/-- If the declarations of a library may all stand in one table, they fill an empty one. -/
theorem Storing.all_filed {root : SourcePath} {clock : String} {ds : List Declaration} {tally : Tally}
    {rows : List ItemRow} (h : Storing root clock (ds.map rename) {} [] tally rows)
    (hfiled : ∀ d ∈ ds, ∃ inner number, Filed root inner number d)
    (hapart : ds.Pairwise fun d e => Apart (entry root (rename d)) (entry root (rename e))) :
    tally.added = ds.length ∧ tally.skipped = 0 ∧ tally.failed = 0 ∧
      List.Forall₂ (fun d row => Holds (entry root (rename d)) row) ds rows := by
  have hoffer : ∀ e ∈ ds.map rename, ∀ l, e.item.location = some l → offer? root e.item l = some (entry root e) := by
    intro e he
    obtain ⟨d, hd, rfl⟩ := List.mem_map.mp he
    obtain ⟨inner, number, hd⟩ := hfiled d hd
    exact hd.offer?_rename
  have hrange : ∀ e ∈ ds.map rename, ¬OutOfRange (entry root e).lineNumber := by
    intro e he
    obtain ⟨d, hd, rfl⟩ := List.mem_map.mp he
    obtain ⟨inner, number, hd⟩ := hfiled d hd
    exact hd.not_outOfRange
  have hfree : ∀ e ∈ ds.map rename, ¬Clashes [] (entry root e) := by
    rintro e - (⟨r, hr, -⟩ | ⟨r, hr, -⟩) <;> cases hr
  obtain ⟨hskipped : tally.skipped = 0, hfailed : tally.failed = 0, new, hnew : rows = new, hrows⟩ :=
    h.all_stored hoffer hrange hfree (List.pairwise_map.mpr hapart)
  subst hnew
  have hcounted : tally.added + tally.skipped + tally.failed = 0 + 0 + 0 + (ds.map rename).length := h.counted
  rw [hskipped, hfailed, List.length_map] at hcounted
  have hheld := List.forall₂_map_left_iff.mp hrows
  exact ⟨by omega, hskipped, hfailed, hheld⟩

theorem itemByUuid?_of_mem {s : Store} {rows : List ItemRow} (hs : s.items = some rows) (hrules : ItemRules rows)
    {row : ItemRow} (hrow : row ∈ rows) {uuid : String} (huuid : row.uuid = some uuid) :
    s.itemByUuid? (some uuid) = .ok (some row) := by
  have hfind : rows.find? (fun r => r.uuid.isSome && r.uuid == some uuid) = some row := by
    cases hfind : rows.find? (fun r => r.uuid.isSome && r.uuid == some uuid) with
    | none => exact absurd (List.find?_eq_none.mp hfind row hrow) (by simp [huuid])
    | some r =>
      have hr := List.find?_some hfind
      simp only [Bool.and_eq_true, beq_iff_eq] at hr
      by_contra hne
      -- no uuid is there twice
      have hpair := List.pairwise_filterMap.mp hrules.uuids
      have hsymm : Std.Symm fun a b : ItemRow => ∀ u, a.uuid = some u → ∀ v, b.uuid = some v → u ≠ v :=
        ⟨fun a b h u hu v hv heq => h v hv u hu heq.symm⟩
      have hother : r ≠ row := fun heq => hne (congrArg some heq)
      exact hpair.forall (List.mem_of_find?_eq_some hfind) hrow hother uuid hr.2 uuid huuid rfl
  simp only [itemByUuid?, demand, hs, ← hfind]
  rfl

/-- Taking the library of a catalog into an empty items table stores it completely: every declaration is added, none is
    skipped or fails, and in the order of the declarations each has its row, which keeps its name, kind, source and line
    and is found by its uuid. This needs that no file declares a name twice, that the digest tells the texts of uuids
    apart, and that no file is larger than files can be. -/
theorem library_stored_completely (root : SourcePath) (files : List (String × List UInt8)) (clock : String) (s : Store)
    (hsize : ∀ f ∈ files, f.2.length ≤ maxSize)
    (hnames : ∀ path ∈ (ofFiles files).sources (libraryRoot root),
      (((ofFiles files).declarationsIn path).map Declaration.name).Nodup)
    (hdigest : ∀ a ∈ uuidTexts root (ofFiles files), ∀ b ∈ uuidTexts root (ofFiles files),
      shortDigest a = shortDigest b → a = b) (hempty : s.items.getD [] = []) :
    let ds := (collect (libraryRoot root) (ofFiles files)).1
    let outcome := run clock false ds s root
    ∃ (tally : Tally) (rows : List ItemRow), outcome.out = some tally.report ∧
      tally.added = ds.length ∧ tally.skipped = 0 ∧ tally.failed = 0 ∧
      outcome.store = { s with items := some rows } ∧
      List.Forall₂ (fun d row => Records d row ∧ outcome.store.itemByUuid? d.item.uuid = .ok (some row)) ds rows := by
  intro ds outcome
  have hfiled : ∀ d ∈ ds, ∃ inner number, Filed root inner number d := fun d hd => filed_of_mem_collect hsize hd
  obtain ⟨tally, rows, hstoring, hrun : outcome = _⟩ :=
    run_storing (fun _ hd => location_of_mem_renamed hd) root clock s
  rw [hempty] at hstoring
  obtain ⟨hadded, hskipped, hfailed, hrows⟩ := hstoring.all_filed hfiled (pairwise_apart hsize hnames hdigest)
  have hstore : outcome.store = { s with items := some rows } := by rw [hrun]
  refine ⟨tally, rows, by rw [hrun], hadded, hskipped, hfailed, hstore, ?_⟩
  have hmem : List.Forall₂ (fun d row => d ∈ ds ∧ row ∈ rows ∧ Holds (entry root (rename d)) row) ds rows := by
    have hright := ((List.forall₂_and_left _ _).mpr ⟨fun _ hrow => hrow, hrows.flip⟩).flip
    exact (List.forall₂_and_left _ _).mpr ⟨fun _ hd => hd, hright⟩
  refine hmem.imp fun d row ⟨hd, hrow, hholds⟩ => ?_
  obtain ⟨inner, number, h⟩ := hfiled d hd
  have huuid : row.uuid = some (uuidOf (root.inside inner) d.name) := by rw [hholds.uuid, h.entry_rename]
  refine ⟨h.records hholds, ?_⟩
  rw [h.uuid, hstore]
  exact itemByUuid?_of_mem rfl (hstoring.rules .nil) hrow huuid

/-- A theorem of one name in two files, one of which has colons in its path, beside a member of that name. -/
theorem library_stored_completely_colons :
    let root : SourcePath := .ofString "/srv/mcp"
    let files : List (String × List UInt8) :=
      [("/srv/mcp/acornlib/src/nat.ac", "theorem refl(a: Nat) \x7b\n    a = a\n\x7d\n".toUTF8.toList),
       ("/srv/mcp/acornlib/src/nat.ac::refl.ac",
        ("attributes Nat \x7b\n    define refl(self) -> Nat \x7b self \x7d\n\x7d\n" ++
          "theorem refl(a: Nat) \x7b\n    a = a\n\x7d\n").toUTF8.toList)]
    (∀ f ∈ files, f.2.length ≤ maxSize) ∧
      (∀ path ∈ (ofFiles files).sources (libraryRoot root),
        (((ofFiles files).declarationsIn path).map Declaration.name).Nodup) ∧
      (∀ a ∈ uuidTexts root (ofFiles files), ∀ b ∈ uuidTexts root (ofFiles files),
        shortDigest a = shortDigest b → a = b) ∧
      ∃ tally : Tally,
        (run "2024-01-01 00:00:00" false (collect (libraryRoot root) (ofFiles files)).1 {} root).out =
          some tally.report ∧
        tally.added = 3 ∧ tally.skipped = 0 ∧ tally.failed = 0 := by
  intro root files
  let nat : SourcePath := ⟨1, ["srv", "mcp", "acornlib", "src", "nat.ac"]⟩
  let colons : SourcePath := ⟨1, ["srv", "mcp", "acornlib", "src", "nat.ac::refl.ac"]⟩
  have hfound : (((ofFiles files).files.flatMap fun f => withFolders f.1).filter fun p =>
      isBelow (libraryRoot root) p && isSource p).eraseDups = [nat, colons] := by decide +kernel
  have hsources : (ofFiles files).sources (libraryRoot root) = [nat, colons] := by
    rw [sources, hfound]
    exact List.mergeSort_of_pairwise (by decide +kernel)
  have hnat : ((ofFiles files).declarationsIn nat).map Declaration.name = ["refl"] := by decide +kernel
  have hcolons : ((ofFiles files).declarationsIn colons).map Declaration.name = ["Nat.refl", "refl"] := by
    decide +kernel
  have hsize : ∀ f ∈ files, f.2.length ≤ maxSize := by decide +kernel
  have hnames : ∀ path ∈ (ofFiles files).sources (libraryRoot root),
      (((ofFiles files).declarationsIn path).map Declaration.name).Nodup := by
    rw [hsources]
    simp [hnat, hcolons]
  have hdigest : ∀ a ∈ uuidTexts root (ofFiles files), ∀ b ∈ uuidTexts root (ofFiles files),
      shortDigest a = shortDigest b → a = b := by
    simp only [uuidTexts, hsources, List.flatMap_cons, List.flatMap_nil, hnat, hcolons]
    decide +kernel
  have hlength : (collect (libraryRoot root) (ofFiles files)).1.length = 3 := by
    have hone := congrArg List.length hnat
    have htwo := congrArg List.length hcolons
    simp only [List.length_map] at hone htwo
    simp [collect_eq, hsources, hone, htwo]
  obtain ⟨tally, rows, hout, hadded, hskipped, hfailed, -⟩ :=
    library_stored_completely root files "2024-01-01 00:00:00" {} hsize hnames hdigest rfl
  exact ⟨hsize, hnames, hdigest, tally, hout, hadded.trans hlength, hskipped, hfailed⟩

end AcornCatalog.Intake
