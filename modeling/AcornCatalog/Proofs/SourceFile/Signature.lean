import AcornCatalog.Proofs.SourceFile
import AcornCatalog.Proofs.SourceFile.Comment
import AcornCatalog.Proofs.SourceFile.DefinitionName

/-! Line breaks in the parameters of a declaration. The brace of a declaration is looked for in its first line, so a
declaration whose parameters go over several lines is passed over, and what stands below its first line is read as if it
stood alone. -/

namespace AcornCatalog

open Text Reader Header Check

/-! ### Outlines of lines put together -/

/-- The same outline `k` lines further down. -/
def Outline.down (k : Nat) (o : Outline) : Outline := (o.1, o.2.1, o.2.2.map (·.down k))

theorem Location.down_down (j k : Nat) (l : Location) : (l.down j).down k = l.down (k + j) := by
  have : l.line + (j : Int) + k = l.line + ((k + j : Nat) : Int) := by omega
  simp only [Location.down, this]

theorem Outline.down_down (j k : Nat) (o : Outline) : (o.down j).down k = o.down (k + j) := by
  simp [Outline.down, Function.comp_def, Location.down_down]

theorem Declaration.outline_down (k : Nat) (d : Declaration) : (d.down k).outline = d.outline.down k := by
  cases d <;> rfl

theorem filterMap_outline?_down (k : Nat) (es : List Entry) :
    (es.map (Entry.down k)).filterMap Entry.outline? = (es.filterMap Entry.outline?).map (Outline.down k) := by
  rw [List.filterMap_map, List.map_filterMap]
  refine congrArg (List.filterMap · es) (funext fun entry => ?_)
  cases entry with
  | declared d => exact congrArg some (d.outline_down k)
  | imported i => rfl

namespace SourceFile

variable {file : SourcePath}

theorem outline_append {upper : List Line} (h : checkBrackets upper = []) (lower : List Line) :
    (ofLines file (upper ++ lower)).outline =
      (ofLines file upper).outline ++ (ofLines file lower).outline.map (Outline.down upper.length) := by
  rw [outline_ofLines, outline_ofLines, outline_ofLines, entries_append h, List.filterMap_append,
    filterMap_outline?_down]

/-- A file declares what begins at its first line, and then what stands below the lines used for that. -/
theorem outline_cons {line : Line} {rest : List Line} {found : List Outline} {used : Nat}
    (h : sketch (entriesAt file 0 line rest) = (found, used)) :
    (ofLines file (line :: rest)).outline =
      found ++ (ofLines file (rest.drop used)).outline.map (Outline.down (used + 1)) := by
  obtain ⟨rfl, rfl⟩ := Prod.mk.inj h
  have hbelow (k : Nat) (ls : List Line) : sweep (entriesAt file) k 0 ls = (entries file ls).map (Entry.down k) := by
    have := sweep_map (k := k) (entriesAt_add file) 0 0 ls
    rwa [Nat.zero_add] at this
  rw [outline_ofLines, outline_ofLines, entries, sweep, List.filterMap_append, sweep_drop, hbelow,
    filterMap_outline?_down, Nat.zero_add, Nat.add_comm 1]

theorem location_of_mem_outline {ls : List Line} {o : Outline} (h : o ∈ (ofLines file ls).outline) :
    ∃ number < ls.length, o.2.2 = some (Place.location ⟨file, number⟩) := by
  obtain ⟨d, hd, rfl⟩ := List.mem_map.mp h
  obtain ⟨number, line, hlocation, hline, -⟩ := exists_line_of_mem hd
  obtain ⟨hlength, -⟩ := List.getElem?_eq_some_iff.mp hline
  exact ⟨number, hlength, hlocation⟩

end SourceFile

/-! ### Signatures -/

/-- The declarations that may take parameters in parentheses. -/
inductive Parametric where
  | proposition
  | postulate
  | definition

namespace Parametric

def keyword : Parametric → String
  | .proposition => "theorem"
  | .postulate => "axiom"
  | .definition => "define"

def kind : Parametric → Kind
  | .proposition => .proposition
  | .postulate => .postulate
  | .definition => .definition

/-- Takes the keyword and what the declaration is called. -/
def header : Parametric → Reader (List Char)
  | .definition => Header.definition
  | sort => Header.statement sort.keyword

/-- What a name may begin with. -/
def first : Parametric → Char → Bool
  | .definition => isLowerStart
  | _ => isNameStart

/-- What a declaration of a name is called. -/
def called : Parametric → List Char → List Char
  | .definition => lowerFront
  | _ => id

end Parametric

/-- Lines that begin with `front` and end with `back`, with a break in front of each piece between them. -/
def broken (front : Line) (pieces : List Line) (back : Line) : List Line :=
  match pieces with
  | [] => [front ++ back]
  | piece :: pieces => front :: broken piece pieces back

/-- How a declaration begins, from the left margin on: its keyword, its name, the parameters in parentheses and the rest
    of the line where they close, which opens a block. The parameters may be broken over several lines. -/
structure Signature where
  sort : Parametric
  gap : List Char
  name : List Char
  /-- What stands between the name and the parentheses. -/
  generics : Line
  /-- The parameters up to the first break. -/
  params : Line
  /-- The parameters behind each break. -/
  pieces : List Line
  behind : Line
  gap_blank : allBlank gap = true
  isName : NameFrom sort.first name
  name_ends : ∀ c ∈ generics.head?, isNameChar c = false
  unopened : '{' ∉ generics ++ (params ++ pieces.flatten)
  opened : '{' ∈ behind

namespace Signature

variable (s : Signature)

def front : Line :=
  s.sort.keyword.toList ++ ' ' :: (s.gap ++ (s.name ++ (s.generics ++ '(' :: s.params)))

/-- The lines of a signature. -/
def lines : List Line := broken s.front s.pieces (')' :: s.behind)

/-- The signature in one line. -/
def joined : Line := s.lines.flatten

end Signature

theorem flatten_broken (front : Line) (pieces : List Line) (back : Line) :
    (broken front pieces back).flatten = front ++ (pieces.flatten ++ back) := by
  induction pieces generalizing front with
  | nil => simp [broken]
  | cons piece pieces ih => simp [broken, ih]

namespace Signature

variable (s : Signature)

theorem joined_eq : s.joined = s.front ++ (s.pieces.flatten ++ ')' :: s.behind) := flatten_broken ..

theorem brace_mem_joined : '{' ∈ s.joined := by
  rw [joined_eq]
  simp [s.opened]

theorem brace_not_mem_front : '{' ∉ s.front := by
  have hkeyword : '{' ∉ s.sort.keyword.toList := by cases s.sort <;> decide
  have hgap : '{' ∉ s.gap := fun h => absurd (List.all_eq_true.mp s.gap_blank _ h) (by decide)
  have hname : '{' ∉ s.name := fun h => absurd (s.isName.name _ h) (by decide)
  have := s.unopened
  simp only [front, List.mem_append, List.mem_cons, not_or] at this ⊢
  exact ⟨hkeyword, by decide, hgap, hname, this.1, by decide, this.2.1⟩

/-- The name in front of the parentheses, and what stands behind it. -/
theorem exists_joined_eq : ∃ rest, (∀ c ∈ rest.head?, isNameChar c = false) ∧
    s.joined = s.sort.keyword.toList ++ (' ' :: s.gap ++ (s.name ++ rest)) := by
  refine ⟨s.generics ++ '(' :: (s.params ++ (s.pieces.flatten ++ ')' :: s.behind)), ?_, by simp [joined_eq, front]⟩
  intro c hc
  have hends := s.name_ends
  cases hgenerics : s.generics with
  | nil =>
    rw [hgenerics] at hc
    cases hc
    rfl
  | cons d generics =>
    rw [hgenerics] at hc hends
    exact hends c hc

/-- Behind the keyword stands the name. -/
theorem keyword_joined : ∃ rest, (∀ c ∈ rest.head?, isNameChar c = false) ∧
    Header.keyword s.sort.keyword s.joined = some ((), s.name ++ rest) := by
  obtain ⟨rest, hrest, heq⟩ := s.exists_joined_eq
  obtain ⟨c, run, hname, -, -⟩ := s.isName.exists_cons
  have hchar : isNameChar c = true := s.isName.name c (hname ▸ List.mem_cons_self)
  refine ⟨rest, hrest, ?_⟩
  rw [heq, hname]
  exact keyword_append (List.cons_ne_nil _ _) (by simpa [allBlank, isBlank] using s.gap_blank)
    (isBlank_eq_false_of_isNameChar hchar) _

end Signature

/-! ### Signatures in one line -/

theorem read?_functionName_append {name rest : List Char} (h : NameFrom isLowerStart name)
    (hrest : ∀ c ∈ rest.head?, isNameChar c = false) :
    functionName.read? (name ++ rest) = some (lowerFront name) := by
  obtain ⟨c, run, rfl, hc, -⟩ := h.exists_cons
  obtain ⟨⟨front, rest'⟩, hfront⟩ : ∃ r, functionName (c :: run ++ rest) = some r :=
    ⟨_, bind_eq_of_some (one_eq_some.mpr ⟨hc, rfl⟩)⟩
  obtain ⟨whole, _, hwhole, rfl⟩ := word_lowerFront hfront
  cases hwhole.symm.trans (word_append (h.mono fun _ => isNameStart_of_isLowerStart) hrest)
  rw [Reader.read?, hfront]
  rfl

theorem Reader.read?_bind {α : Type} {r : Reader Unit} {f : Reader α} {cs rest : List Char}
    (h : r cs = some ((), rest)) : (r >>= fun _ => f).read? cs = f.read? rest := by
  rw [Reader.read?, bind_eq_of_some h]
  rfl

namespace Signature

variable (s : Signature)

theorem read?_header_joined : s.sort.header.read? s.joined = some (s.sort.called s.name) := by
  obtain ⟨rest, hrest, hkeyword⟩ := s.keyword_joined
  have hname := s.isName
  revert hkeyword hname
  cases s.sort with
  | definition =>
    intro hkeyword hname
    exact (Reader.read?_bind hkeyword).trans (read?_functionName_append hname hrest)
  | proposition | postulate =>
    intro hkeyword hname
    exact (Reader.read?_bind hkeyword).trans (congrArg (Option.map _) (word_append hname hrest))

end Signature

section Reading

variable {place : Place} {line : Line} {rest : List Line} {name : List Char} (h : BracesClose (line :: rest))
  (hbrace : '{' ∈ line)

include h hbrace in
theorem exists_firstBlock? : ∃ b, firstBlock? line rest = some b ∧ b.height ≤ rest.length := by
  obtain ⟨column, hcolumn⟩ : ∃ column, braceColumn? line = some column :=
    Option.ne_none_iff_exists'.mp fun hnone => List.idxOf?_eq_none_iff.mp hnone hbrace
  obtain ⟨b, hb⟩ := h line rest column (List.suffix_refl _) (braceColumn?_eq_some hcolumn)
  have hblock : firstBlock? line rest = some b := by rw [firstBlock?, hcolumn]; exact hb
  exact ⟨b, hblock, firstBlock?_height hblock⟩

theorem SecondBlock.exists_mapM {first : Block} {second? : List Line → Option (Option Block)}
    (h : SecondBlock rest first second?) :
    ∃ b?, (second? rest).mapM id = some b? ∧ first.height + (b?.map (·.height)).getD 0 ≤ rest.length := by
  obtain ⟨b?, hheight, hsecond⟩ := h
  have hrest := hsecond []
  rw [List.append_nil] at hrest
  refine ⟨b?, ?_, hheight⟩
  rw [hrest]
  cases b? <;> rfl

include h hbrace in
theorem Definition.exists_sketch (hname : Header.definition.read? line = some name) : ∃ used ≤ rest.length,
    sketch (Entry.ofReading (fun d => [.definition d]) (Definition.read? place line rest)) =
      ([(String.ofList name, .definition, some place.location)], used) := by
  obtain ⟨b, hb, hheight⟩ := exists_firstBlock? h hbrace
  refine ⟨b.height, hheight, ?_⟩
  rw [Definition.read?, hname]
  simp only [Option.bind_eq_bind, Option.bind_some, hb]
  rfl

include h hbrace in
theorem Statement.exists_sketch {postulated : Bool}
    (hpostulated : "axiom".toList.isPrefixOf (trimStart line) = postulated)
    (hname : (Header.statement (if postulated then "axiom" else "theorem")).read? (trimStart line) = some name) :
    ∃ used ≤ rest.length, sketch (Entry.ofReading (fun d => [.statement d]) (Statement.read? place line rest)) =
      ([(String.ofList name, if postulated then .postulate else .proposition, some place.location)], used) := by
  obtain ⟨head, hhead, hheight⟩ := exists_firstBlock? h hbrace
  have hsecond : SecondBlock rest head fun ls => if postulated then none else proofBlock? (line :: ls) head := by
    cases postulated with
    | true => exact ⟨none, hheight, fun _ => rfl⟩
    | false => exact proofBlock?_second h hheight
  obtain ⟨proof?, hproof, hused⟩ := hsecond.exists_mapM
  refine ⟨_, hused, ?_⟩
  rw [Statement.read?, hpostulated, hname]
  simp only [Option.bind_eq_bind, Option.bind_some, hhead, hproof]
  rfl

end Reading

namespace Signature

variable (s : Signature) {file : SourcePath} {below : List Line}

/-- In one line the signature is read. -/
theorem exists_sketch (h : BracesClose (s.joined :: below)) : ∃ used ≤ below.length,
    sketch (entriesAt file 0 s.joined below) =
      ([(String.ofList (s.sort.called s.name), s.sort.kind, some (Place.location ⟨file, 0⟩))], used) := by
  have hheader := s.read?_header_joined
  have hbrace := s.brace_mem_joined
  obtain ⟨rest, -, heq⟩ := s.exists_joined_eq
  -- the keyword at the left margin tells which reading is taken
  revert h hheader hbrace
  rw [heq]
  cases s.sort with
  | definition =>
    intro h hheader hbrace
    exact @Definition.exists_sketch ⟨file, 0⟩ _ _ _ h hbrace hheader
  | proposition =>
    intro h hheader hbrace
    exact @Statement.exists_sketch ⟨file, 0⟩ _ _ _ h hbrace false rfl hheader
  | postulate =>
    intro h hheader hbrace
    exact @Statement.exists_sketch ⟨file, 0⟩ _ _ _ h hbrace true rfl hheader

/-- If the signature goes over several lines, nothing is read at its first one. -/
theorem sketch_front : sketch (entriesAt file 0 s.front below) = ([], 0) := by
  rw [sketch_entriesAt_of_no_brace s.brace_not_mem_front]
  have hword : "instance ".toList.isPrefixOf (trimStart s.front) = false := by
    rw [front]
    cases s.sort <;> rfl
  rw [hword]
  rfl

theorem unbroken_of_mem_lines (h : Unbroken s.joined) {l : Line} (hl : l ∈ s.lines) : Unbroken l :=
  fun c hc => h c (List.mem_flatten.mpr ⟨l, hl, hc⟩)

end Signature

namespace SourceFile

variable (file : SourcePath) (s : Signature) {upper below : List Line}

theorem outline_joined (hupper : checkBrackets upper = []) (hclosed : checkBrackets (s.joined :: below) = []) :
    ∃ used ≤ below.length, (ofLines file (upper ++ s.joined :: below)).outline =
      (ofLines file upper).outline ++
        (String.ofList (s.sort.called s.name), s.sort.kind, some (Place.location ⟨file, upper.length⟩)) ::
          (ofLines file (below.drop used)).outline.map (Outline.down (upper.length + (used + 1))) := by
  obtain ⟨used, hused, hsketch⟩ := @Signature.exists_sketch s file _ (bracesClose_of_checkBrackets hclosed)
  refine ⟨used, hused, ?_⟩
  rw [outline_append hupper, outline_cons hsketch]
  have := Place.location_add file 0 upper.length
  rw [Nat.zero_add] at this
  simp [this, Outline.down, Function.comp_def, Location.down_down]

theorem outline_lines (hpieces : s.pieces ≠ []) (hupper : checkBrackets upper = []) :
    (ofLines file (upper ++ (s.lines ++ below))).outline =
      (ofLines file upper).outline ++
        (ofLines file (s.lines.tail ++ below)).outline.map (Outline.down (upper.length + 1)) := by
  obtain ⟨piece, pieces, heq⟩ := List.exists_cons_of_ne_nil hpieces
  have hlines : s.lines = s.front :: s.lines.tail := by
    rw [Signature.lines, heq]
    rfl
  rw [outline_append hupper, hlines, List.cons_append, outline_cons s.sketch_front]
  simp [Outline.down_down, Function.comp_def]

/-- A declaration stands at the line of the signature only if that is one line. -/
theorem exists_declared_lines_iff (hupper : checkBrackets upper = [])
    (hclosed : checkBrackets (s.joined :: below) = []) :
    (∃ d ∈ (ofLines file (upper ++ (s.lines ++ below))).declarations,
      d.item.location = some (Place.location ⟨file, upper.length⟩)) ↔ s.pieces = [] := by
  constructor
  · rintro ⟨d, hd, hlocation⟩
    refine Decidable.byContradiction fun hpieces => ?_
    have hmem : d.outline ∈ (ofLines file (upper ++ (s.lines ++ below))).outline := List.mem_map_of_mem hd
    rw [outline_lines file s hpieces hupper] at hmem
    -- what the lines above declare stands above this line, and all else further down
    rcases List.mem_append.mp hmem with hmem | hmem
    · obtain ⟨number, hnumber, heq⟩ := location_of_mem_outline hmem
      have hline := hlocation.symm.trans heq
      simp only [Place.location, Option.some.injEq, Location.mk.injEq] at hline
      omega
    · obtain ⟨o, ho, heq⟩ := List.mem_map.mp hmem
      obtain ⟨number, -, hnumber⟩ := location_of_mem_outline ho
      have hline : d.item.location = (o.down (upper.length + 1)).2.2 := by rw [heq]; rfl
      rw [hlocation, Outline.down, hnumber] at hline
      simp only [Place.location, Location.down, Option.map_some, Option.some.injEq, Location.mk.injEq] at hline
      omega
  · intro hpieces
    have hlines : s.lines = [s.joined] := by
      rw [Signature.joined, Signature.lines, hpieces]
      simp [broken]
    obtain ⟨used, -, houtline⟩ := outline_joined file s hupper hclosed
    rw [hlines]
    have hmem : (String.ofList (s.sort.called s.name), s.sort.kind, some (Place.location ⟨file, upper.length⟩)) ∈
        (ofLines file (upper ++ s.joined :: below)).outline := by
      rw [houtline]
      simp
    obtain ⟨d, hd, heq⟩ := List.mem_map.mp hmem
    exact ⟨d, hd, congrArg (·.2.2) heq⟩

/-- A theorem, postulate or definition with parameters in parentheses is read if its signature is one line: the file
    declares its name and its kind at that line, between what the lines above and below it declare. If the parameters
    are broken over several lines, nothing is declared at the first of them, and the lines below it are read as a file
    of their own. So the declaration is found exactly if its parameters are not broken. -/
theorem signature_read_unless_broken (hupper : ∀ l ∈ upper, Unbroken l) (hjoined : Unbroken s.joined)
    (hbelow : ∀ l ∈ below, Unbroken l) (hbrackets : checkBrackets upper = [])
    (hclosed : checkBrackets (s.joined :: below) = []) :
    (∃ used ≤ below.length, (ofText file (fileText (upper ++ s.joined :: below))).outline =
      (ofText file (fileText upper)).outline ++
        (String.ofList (s.sort.called s.name), s.sort.kind, some (Place.location ⟨file, upper.length⟩)) ::
          (ofText file (fileText (below.drop used))).outline.map (Outline.down (upper.length + (used + 1)))) ∧
    (s.pieces ≠ [] → (ofText file (fileText (upper ++ (s.lines ++ below)))).outline =
      (ofText file (fileText upper)).outline ++
        (ofText file (fileText (s.lines.tail ++ below))).outline.map (Outline.down (upper.length + 1))) ∧
    ((∃ d ∈ (ofText file (fileText (upper ++ (s.lines ++ below)))).declarations,
      d.item.location = some (Place.location ⟨file, upper.length⟩)) ↔ s.pieces = []) := by
  have hread {ls : List Line} (h : ∀ l ∈ ls, Unbroken l) : ofText file (fileText ls) = ofLines file ls := by
    rw [ofText, lines_fileText h]
  have hlines : ∀ l ∈ s.lines ++ below, Unbroken l := by
    intro l hl
    rcases List.mem_append.mp hl with hl | hl
    · exact s.unbroken_of_mem_lines hjoined hl
    · exact hbelow l hl
  have hall : ∀ l ∈ upper ++ (s.lines ++ below), Unbroken l := List.forall_mem_append.mpr ⟨hupper, hlines⟩
  have hone : ∀ l ∈ upper ++ s.joined :: below, Unbroken l :=
    List.forall_mem_append.mpr ⟨hupper, List.forall_mem_cons.mpr ⟨hjoined, hbelow⟩⟩
  have htail : ∀ l ∈ s.lines.tail ++ below, Unbroken l := by
    intro l hl
    rcases List.mem_append.mp hl with hl | hl
    · exact hlines l (List.mem_append_left _ (List.mem_of_mem_tail hl))
    · exact hbelow l hl
  rw [hread hall, hread hone, hread hupper, hread htail]
  refine ⟨?_, fun hpieces => outline_lines file s hpieces hbrackets,
    exists_declared_lines_iff file s hbrackets hclosed⟩
  obtain ⟨used, hused, houtline⟩ := outline_joined file s hbrackets hclosed
  exact ⟨used, hused, by rw [hread fun l hl => hbelow l (List.mem_of_mem_drop hl), houtline]⟩

/-- A theorem that is found in one line and lost in two. -/
theorem signature_read_unless_broken_sym :
    ∃ s : Signature, s.lines = ["theorem sym(a: Nat,".toList, "    b: Nat) \x7b a = b \x7d".toList] ∧
      (ofText ⟨0, ["nat.ac"]⟩ (fileText [s.joined])).outline = [("sym", .proposition, some ⟨⟨0, ["nat.ac"]⟩, 1⟩)] ∧
      (ofText ⟨0, ["nat.ac"]⟩ (fileText s.lines)).outline = [] ∧
      ¬∃ d ∈ (ofText ⟨0, ["nat.ac"]⟩ (fileText s.lines)).declarations,
        d.item.location = some (Place.location ⟨⟨0, ["nat.ac"]⟩, 0⟩) := by
  let s : Signature :=
    { sort := .proposition
      gap := []
      name := "sym".toList
      generics := []
      params := "a: Nat,".toList
      pieces := ["    b: Nat".toList]
      behind := " \x7b a = b \x7d".toList
      gap_blank := rfl
      isName := ⟨rfl, List.all_eq_true.mp rfl⟩
      name_ends := fun _ hc => by cases hc
      unopened := by decide
      opened := by decide }
  have hnone : ∀ l ∈ ([] : List Line), Unbroken l := fun _ hl => by cases hl
  obtain ⟨⟨used, hused, hjoined⟩, hbroken, hfound⟩ :=
    signature_read_unless_broken ⟨0, ["nat.ac"]⟩ s hnone (by decide) hnone rfl (by decide)
  obtain rfl : used = 0 := Nat.le_zero.mp hused
  have hlines : s.lines ++ [] = s.lines := List.append_nil _
  rw [List.nil_append, hlines] at hbroken hfound
  exact ⟨s, by decide, hjoined, hbroken (List.cons_ne_nil _ _), fun h => List.cons_ne_nil _ _ (hfound.mp h)⟩

end SourceFile

end AcornCatalog
