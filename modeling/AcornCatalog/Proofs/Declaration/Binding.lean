import AcornCatalog.Proofs.Declaration.Member

/-! The bindings of an instance. A binding that stands on one line is read with the lines below it, as its end is looked
for only there: it ends with an empty line, or in front of one, or with a line that ends in a brace. So bindings that
follow each other without such a line between them are read as one, which is named after the first. -/

namespace AcornCatalog

open Text Reader Header

/-! ### Bindings on one line -/

/-- A binding as written on a line: `let`, its name, a colon, its type, an equals sign and its value. -/
structure Binding where
  indent : List Char
  gap : List Char
  name : List Char
  beforeColon : List Char
  type : List Char
  value : List Char
  blanks : allBlank (indent ++ gap ++ beforeColon) = true
  spaced : gap ≠ []
  named : NameFrom isNameChar name
  oneLine : ∀ c ∈ indent ++ ("let".toList ++ (gap ++ (name ++ (beforeColon ++ ':' :: (type ++ '=' :: value))))),
    c ≠ '\n' ∧ c ≠ '{' ∧ c ≠ '}'

namespace Binding

/-- What stands in front of the equals sign. -/
def front (b : Binding) : Line := "let".toList ++ (b.gap ++ (b.name ++ (b.beforeColon ++ ':' :: b.type)))

/-- The line of the binding. -/
def line (b : Binding) : Line := b.indent ++ (b.front ++ '=' :: b.value)

variable (b : Binding)

theorem line_eq : b.line =
    b.indent ++ ("let".toList ++ (b.gap ++ (b.name ++ (b.beforeColon ++ ':' :: (b.type ++ '=' :: b.value))))) := by
  simp [line, front]

theorem not_mem_line : '\n' ∉ b.line ∧ '}' ∉ b.line := by
  rw [line_eq]
  exact ⟨fun h => (b.oneLine _ h).1 rfl, fun h => (b.oneLine _ h).2.2 rfl⟩

theorem allBlank_parts : allBlank b.indent = true ∧ allBlank b.gap = true ∧ allBlank b.beforeColon = true := by
  have h := b.blanks
  simp only [allBlank, List.all_append, Bool.and_eq_true, and_assoc] at h
  exact h

theorem trim_line : trim b.line = b.front ++ '=' :: trimEnd b.value := by
  have hstart : trimStart (b.front ++ '=' :: b.value) = b.front ++ '=' :: b.value := rfl
  rw [line, trim_blanks_append b.allBlank_parts.1, trim, hstart, trimEnd_append_cons rfl]

theorem read?_binding : binding.read? (trim b.line) = some b.name := by
  obtain ⟨-, hgap, hcolon⟩ := b.allBlank_parts
  have htext : trim b.line =
      "let".toList ++ (b.gap ++ (b.name ++ (b.beforeColon ++ ':' :: (b.type ++ '=' :: trimEnd b.value)))) := by
    rw [b.trim_line]
    simp [front]
  rw [Reader.read?, binding_eq_some_iff.mpr ⟨b.named, b.gap, b.beforeColon, b.spaced, hgap, hcolon, htext⟩]
  rfl

end Binding

/-! ### Bodies of bindings -/

/-- A line of a body that has bindings only: an empty line or a comment, or a binding. -/
inductive BindingLine where
  | idle (line : Line) (unbroken : '\n' ∉ line) (isIdle : isIdleLine (trim line) = true)
  | binding (b : Binding)

namespace BindingLine

/-- The line itself. -/
def line : BindingLine → Line
  | .idle line _ _ => line
  | .binding b => b.line

/-- The binding on the line. -/
def binding? : BindingLine → Option Binding
  | .idle _ _ _ => none
  | .binding b => some b

/-- Whether the line keeps the bindings above it from those below: it is empty, or a comment that ends in a brace. -/
def separates (l : BindingLine) : Bool := allBlank l.line || (trim l.line).getLast? == some '}'

theorem feed_not_mem (l : BindingLine) : '\n' ∉ l.line := by
  cases l with
  | idle line unbroken _ => exact unbroken
  | binding b => exact b.not_mem_line.1

theorem separates_binding (b : Binding) : (BindingLine.binding b).separates = false := by
  have hblank : allBlank b.line = false := by
    refine List.all_eq_false.mpr ⟨'=', ?_, by decide⟩
    simp [Binding.line]
  have hbrace : (trim b.line).getLast? ≠ some '}' := fun h =>
    b.not_mem_line.2 ((trim_isInfix b.line).subset (List.mem_of_getLast? h))
  simp [separates, line, hblank, hbrace]

theorem binding?_of_separates {l : BindingLine} (h : l.separates = true) : l.binding? = none := by
  cases l with
  | idle => rfl
  | binding b => simp [separates_binding] at h

end BindingLine

/-- The bindings in the lines of a body. -/
def declaredBindings (body : List BindingLine) : List Binding := body.filterMap BindingLine.binding?

/-- The bindings of a body, those together that no line separates. -/
def bindingRuns (body : List BindingLine) : List (List Binding) :=
  ((body.splitOnP BindingLine.separates).map declaredBindings).filter fun run => !run.isEmpty

/-- Behind each binding a line that separates comes before the next one. -/
def Separated (body : List BindingLine) : Prop :=
  ∀ above b below, body = above ++ .binding b :: below →
    declaredBindings (below.takeWhile fun l => !l.separates) = []

section Runs

variable {body quiet rest : List BindingLine} {l : BindingLine}

theorem bindingRuns_cons_of_none (h : l.binding? = none) (body : List BindingLine) :
    bindingRuns (l :: body) = bindingRuns body := by
  rw [bindingRuns, List.splitOnP_cons_eq_if_modifyHead]
  split
  · rfl
  · obtain ⟨piece, pieces, hpieces⟩ := List.exists_cons_of_ne_nil (List.splitOnP_ne_nil BindingLine.separates body)
    have hpiece : declaredBindings (l :: piece) = declaredBindings piece := by simp [declaredBindings, h]
    rw [bindingRuns, hpieces, List.modifyHead_cons, List.map_cons, List.map_cons, hpiece]

theorem bindingRuns_append_of_none (h : declaredBindings quiet = []) (rest : List BindingLine) :
    bindingRuns (quiet ++ rest) = bindingRuns rest := by
  induction quiet with
  | nil => rfl
  | cons l quiet ih =>
    cases hl : l.binding? with
    | some b => simp [declaredBindings, hl] at h
    | none =>
      rw [List.cons_append, bindingRuns_cons_of_none hl]
      exact ih (by simpa [declaredBindings, hl] using h)

/-- A run goes on to the next line that separates. -/
theorem bindingRuns_binding (b : Binding) (hquiet : ∀ l ∈ quiet, l.separates = false)
    (hrest : ∀ l ∈ rest.head?, l.separates = true) :
    bindingRuns (.binding b :: (quiet ++ rest)) = (b :: declaredBindings quiet) :: bindingRuns rest := by
  have hrun : ∀ l ∈ BindingLine.binding b :: quiet, l.separates = false :=
    List.forall_mem_cons.mpr ⟨BindingLine.separates_binding b, hquiet⟩
  cases rest with
  | nil =>
    rw [List.append_nil, bindingRuns, List.splitOnP_eq_singleton hrun]
    rfl
  | cons l rest =>
    have hl : l.separates = true := hrest l rfl
    rw [bindingRuns_cons_of_none (BindingLine.binding?_of_separates hl), ← List.cons_append, bindingRuns,
      List.splitOnP_append_cons_of_forall_mem hrun l hl]
    rfl

theorem separated_idle (h : l.binding? = none) : Separated (l :: body) ↔ Separated body := by
  constructor
  · intro hsep above b below hbody
    exact hsep (l :: above) b below (congrArg (l :: ·) hbody)
  · intro hsep above b below hbody
    rcases List.cons_eq_append_iff.mp hbody with ⟨-, heq⟩ | ⟨above', -, heq⟩
    · rw [List.cons.inj heq |>.1.symm] at h
      cases h
    · exact hsep above' b below heq

theorem separated_binding {b : Binding} :
    Separated (.binding b :: body) ↔
      declaredBindings (body.takeWhile fun l => !l.separates) = [] ∧ Separated body := by
  constructor
  · intro hsep
    exact ⟨hsep [] b body rfl, fun above c below hbody => hsep (.binding b :: above) c below (congrArg _ hbody)⟩
  · rintro ⟨hfirst, hsep⟩ above c below hbody
    rcases List.cons_eq_append_iff.mp hbody with ⟨-, heq⟩ | ⟨above', -, heq⟩
    · rw [(List.cons.inj heq).2]
      exact hfirst
    · exact hsep above' c below heq

/-- Every binding is a run of its own exactly if all are separated. -/
theorem bindingRuns_eq_singles_iff (body : List BindingLine) :
    bindingRuns body = (declaredBindings body).map (fun b => [b]) ↔ Separated body := by
  induction body with
  | nil => exact iff_of_true rfl fun above b below h => by simp at h
  | cons l body ih =>
    cases hl : l.binding? with
    | none =>
      have hdeclared : declaredBindings (l :: body) = declaredBindings body := by simp [declaredBindings, hl]
      rw [bindingRuns_cons_of_none hl, hdeclared, ih, separated_idle hl]
    | some b =>
      obtain rfl : l = .binding b := by
        cases l with
        | idle => cases hl
        | binding c => exact congrArg _ (Option.some.inj hl)
      have hsplit := List.takeWhile_append_dropWhile (p := fun l : BindingLine => !l.separates) (l := body)
      have hquiet : ∀ l ∈ body.takeWhile (fun l => !l.separates), l.separates = false := fun l hmem => by
        simpa using List.mem_takeWhile_imp hmem
      have hrest : ∀ l ∈ (body.dropWhile fun l => !l.separates).head?, l.separates = true := fun l hmem => by
        have := List.head?_dropWhile_not (fun l : BindingLine => !l.separates) body
        rw [Option.mem_def.mp hmem] at this
        simpa using this
      have hruns := bindingRuns_binding b hquiet hrest
      rw [hsplit] at hruns
      have hdeclared : declaredBindings (.binding b :: body) = b :: declaredBindings body := rfl
      rw [hruns, hdeclared, List.map_cons, List.cons.injEq, separated_binding, ← ih, List.cons.injEq, and_iff_right rfl]
      refine and_congr_right fun hnone => ?_
      rw [← bindingRuns_append_of_none hnone, hsplit]

end Runs

/-! ### What is read -/

/-- A binding and the lines below that are read as part of it. -/
structure BindingRun where
  first : Binding
  more : List BindingLine

namespace BindingRun

/-- The bindings whose lines the run has. -/
def bindings (r : BindingRun) : List Binding := r.first :: declaredBindings r.more

/-- The lines of the run. -/
def lines (r : BindingRun) : List BindingLine := .binding r.first :: r.more

/-- The text of the run. -/
def text (r : BindingRun) : List Char := joinLines (r.lines.map BindingLine.line)

/-- The member of an instance for `typeName` that the run is read as. -/
def member (typeName : String) (r : BindingRun) : Definition where
  name := typeName ++ "." ++ String.ofList r.first.name
  kind := .instanceMember
  source := String.ofList r.text
  signature := String.ofList (trim r.text)
  body := String.ofList (trim r.text)

end BindingRun

theorem bindingAt_of_isIdleLine (typeName : String) (trimmed line : Line) (rest : List Line)
    (h : isIdleLine trimmed = true) : bindingAt typeName trimmed line rest = none := by
  rcases eq_nil_or_slash_of_isIdleLine h with rfl | ⟨note, rfl⟩
  · rfl
  · rfl

theorem bindingAt_line (typeName : String) (b : Binding) (below : List BindingLine) :
    bindingAt typeName (trim b.line) b.line (below.map BindingLine.line) =
      some (BindingRun.member typeName ⟨b, below.take (bindingTail b.line (below.map BindingLine.line))⟩,
        bindingTail b.line (below.map BindingLine.line)) := by
  have hequals : b.line.contains '=' = true := by
    rw [List.contains_iff_mem]
    simp [Binding.line]
  simp only [bindingAt, b.read?_binding, Option.map_some, hequals, if_true, BindingRun.member, BindingRun.text,
    BindingRun.lines, List.map_cons, BindingLine.line, List.map_take]

/-- The lines that are read as part of a binding end with the next line that separates, or in front of it. -/
theorem exists_quiet_of_bindingTail {current : Line} (hcurrent : (trim current).getLast? ≠ some '}')
    (below : List BindingLine) :
    ∃ quiet rest, below = quiet ++ rest ∧ (∀ l ∈ quiet, l.separates = false) ∧
      (∀ l ∈ rest.head?, l.separates = true) ∧
      (below.drop (bindingTail current (below.map BindingLine.line)) = rest ∨
        below.drop (bindingTail current (below.map BindingLine.line)) = rest.tail) := by
  induction below generalizing current with
  | nil => exact ⟨[], [], rfl, nofun, nofun, Or.inl rfl⟩
  | cons l below ih =>
    rw [List.map_cons, bindingTail, if_neg hcurrent]
    by_cases hsep : l.separates = true
    · -- the line itself ends the binding
      refine ⟨[], l :: below, rfl, nofun, fun m hm => Option.some.inj hm ▸ hsep, Or.inr ?_⟩
      split
      · rfl
      · next hblank =>
        have hbrace : (trim l.line).getLast? = some '}' := by
          simp only [Bool.or_eq_true, not_or] at hblank
          simpa [BindingLine.separates, hblank.1] using hsep
        have hnone : bindingTail l.line (below.map BindingLine.line) = 0 := by
          cases below with
          | nil => rfl
          | cons m below => rw [List.map_cons, bindingTail, if_pos hbrace]
        rw [hnone]
        rfl
    · have hl : l.separates = false := by simpa using hsep
      obtain ⟨hblank, hbrace⟩ : allBlank l.line = false ∧ (trim l.line).getLast? ≠ some '}' := by
        simpa [BindingLine.separates] using hl
      split
      · next hnext =>
        refine ⟨[l], below, rfl, List.forall_mem_singleton.mpr hl, fun m hm => ?_, Or.inl rfl⟩
        rw [hblank, Bool.false_or, List.head?_map, Option.mem_def.mp hm] at hnext
        simp only [Option.map_some, Option.any_some] at hnext
        simp [BindingLine.separates, hnext]
      · obtain ⟨quiet, rest, heq, hquiet, hrest, hdrop⟩ := ih hbrace
        exact ⟨l :: quiet, rest, congrArg (l :: ·) heq, List.forall_mem_cons.mpr ⟨hl, hquiet⟩, hrest, hdrop⟩

/-- What is read as part of a binding is the run that it begins. -/
theorem bindingRuns_of_bindingTail (b : Binding) (below : List BindingLine) :
    bindingRuns (.binding b :: below) =
      (b :: declaredBindings (below.take (bindingTail b.line (below.map BindingLine.line)))) ::
        bindingRuns (below.drop (bindingTail b.line (below.map BindingLine.line))) := by
  have hbrace : (trim b.line).getLast? ≠ some '}' := fun h =>
    b.not_mem_line.2 ((trim_isInfix b.line).subset (List.mem_of_getLast? h))
  obtain ⟨quiet, rest, heq, hquiet, hrest, hdrop⟩ := exists_quiet_of_bindingTail hbrace below
  generalize bindingTail b.line (below.map BindingLine.line) = used at hdrop ⊢
  -- the line that separates has no binding, so it does not matter to which side it goes
  have hside : bindingRuns (below.drop used) = bindingRuns rest ∧
      declaredBindings (below.drop used) = declaredBindings rest := by
    rcases hdrop with hdrop | hdrop
    · exact ⟨congrArg _ hdrop, congrArg _ hdrop⟩
    · rw [hdrop]
      cases rest with
      | nil => exact ⟨rfl, rfl⟩
      | cons l rest =>
        have hl := BindingLine.binding?_of_separates (hrest l rfl)
        exact ⟨(bindingRuns_cons_of_none hl rest).symm, by simp [declaredBindings, hl]⟩
  have htake : declaredBindings (below.take used) = declaredBindings quiet := by
    have hall : declaredBindings (below.take used ++ below.drop used) = declaredBindings (quiet ++ rest) := by
      rw [List.take_append_drop, heq]
    simp only [declaredBindings, List.filterMap_append] at hall hside ⊢
    rw [hside.2] at hall
    exact List.append_cancel_right hall
  rw [hside.1, htake, heq, bindingRuns_binding b hquiet hrest]

/-- The runs of a body: they are read as its members, lie one below the other in it, and have the bindings that no line
    separates. -/
structure ReadAs (typeName : String) (body : List BindingLine) (members : List Definition) (runs : List BindingRun) :
    Prop where
  members : members = runs.map (BindingRun.member typeName)
  inOrder : (runs.flatMap BindingRun.lines).Sublist body
  together : ∀ r ∈ runs, r.lines <:+: body
  bindings : runs.map BindingRun.bindings = bindingRuns body

theorem exists_readAs (typeName : String) (body : List BindingLine) (number : Nat) :
    ∃ runs, ReadAs typeName body (sweep (fun _ line rest =>
      let found := bindingAt typeName (trim line) line rest
      ((found.map (·.1)).toList, (found.map (·.2)).getD 0)) number 0 (body.map BindingLine.line)) runs := by
  -- a binding uses up lines below it, so the induction is on how many lines are left
  induction hlength : body.length using Nat.strong_induction_on generalizing body number with
  | _ n ih =>
    cases body with
    | nil => exact ⟨[], rfl, .slnil, nofun, rfl⟩
    | cons l below =>
      have hshorter (used : Nat) : (below.drop used).length < n := by
        rw [← hlength, List.length_drop, List.length_cons]
        omega
      cases l with
      | idle line unbroken isIdle =>
        obtain ⟨runs, hread, horder, htogether, hruns⟩ := ih _ (hshorter 0) below (number + 1) rfl
        refine ⟨runs, ?_, horder.cons _, fun r hr => (htogether r hr).trans (List.suffix_cons ..).isInfix, ?_⟩
        · rw [List.map_cons, sweep, BindingLine.line, bindingAt_of_isIdleLine typeName _ line _ isIdle]
          exact hread
        · rw [hruns, bindingRuns_cons_of_none rfl]
      | binding b =>
        generalize htail : bindingTail b.line (below.map BindingLine.line) = used
        obtain ⟨runs, hread, horder, htogether, hruns⟩ := ih _ (hshorter used) (below.drop used) (number + 1 + used) rfl
        have hbelow : below = below.take used ++ below.drop used := (List.take_append_drop ..).symm
        refine ⟨⟨b, below.take used⟩ :: runs, ?_, ?_, ?_, ?_⟩
        · rw [List.map_cons, sweep, BindingLine.line, bindingAt_line, htail, List.map_cons, ← hread, List.map_drop]
          exact congrArg _ (sweep_drop _ _ _ _)
        · conv_rhs => rw [hbelow, ← List.cons_append]
          exact (List.Sublist.refl _).append horder
        · refine List.forall_mem_cons.mpr ⟨?_, fun r hr => ?_⟩
          · exact ⟨[], below.drop used, congrArg _ hbelow.symm⟩
          · exact ((htogether r hr).trans (List.drop_suffix used below).isInfix).trans (List.suffix_cons ..).isInfix
        · rw [List.map_cons, hruns, bindingRuns_of_bindingTail, htail]
          rfl

/-- In a body of bindings on one line each, empty lines and comments, what no line separates is read as one member: it
    is named after its first binding and its source has the lines of them all. So each binding is a member of its own,
    and its source has no other's line, exactly if behind each binding a line that separates comes before the next
    one. -/
theorem bindings_joined_unless_separated (typeName : String) (body : List BindingLine) :
    ∃ runs, ReadAs typeName body (instanceMembers typeName (joinLines (body.map BindingLine.line))) runs ∧
      (runs.map BindingRun.bindings = (declaredBindings body).map (fun b => [b]) ↔ Separated body) := by
  obtain ⟨runs, hread⟩ := exists_readAs typeName body 0
  refine ⟨runs, ?_, by rw [hread.bindings, bindingRuns_eq_singles_iff]⟩
  convert hread using 1
  rw [instanceMembers, membersBy_eq_sweep (bindingAt_of_isIdleLine typeName)]
  cases body with
  | nil => rfl
  | cons l body =>
    have hfeed : ∀ line ∈ (l :: body).map BindingLine.line, '\n' ∉ line := by
      intro line hline
      obtain ⟨m, -, rfl⟩ := List.mem_map.mp hline
      exact m.feed_not_mem
    rw [joinLines, cut_intercalate (by simp) hfeed]

/-- Two bindings on lines that follow each other are read as one, and behind an empty line a further one by itself. -/
theorem bindings_joined_unless_separated_pair :
    ∃ body : List BindingLine,
      body.map BindingLine.line =
        ["let add: A = f".toList, "let mul: B = g".toList, "".toList, "let one: Nat = h".toList] ∧
      ¬Separated body ∧
      ∃ runs, ReadAs "Nat" body (instanceMembers "Nat" (joinLines (body.map BindingLine.line))) runs ∧
        runs.map (fun r => r.bindings.map fun b => String.ofList b.name) = [["add", "mul"], ["one"]] := by
  let binding (name type value : List Char) (named : NameFrom isNameChar name)
      (oneLine : ∀ c ∈ "let".toList ++ ([' '] ++ (name ++ ([] ++ ':' :: (type ++ '=' :: value)))),
        c ≠ '\n' ∧ c ≠ '{' ∧ c ≠ '}') : Binding :=
    { indent := [], gap := [' '], name, beforeColon := [], type, value
      blanks := rfl, spaced := by decide, named, oneLine }
  let body : List BindingLine :=
    [.binding (binding "add".toList " A ".toList " f".toList ⟨rfl, by decide⟩ (by simp)),
     .binding (binding "mul".toList " B ".toList " g".toList ⟨rfl, by decide⟩ (by simp)),
     .idle [] (by decide) rfl,
     .binding (binding "one".toList " Nat ".toList " h".toList ⟨rfl, by decide⟩ (by simp))]
  obtain ⟨runs, hread, hiff⟩ := bindings_joined_unless_separated "Nat" body
  have hnames : runs.map (fun r => r.bindings.map fun b => String.ofList b.name) = [["add", "mul"], ["one"]] := by
    have h := congrArg (List.map (List.map fun b : Binding => String.ofList b.name)) hread.bindings
    rw [List.map_map] at h
    exact h
  refine ⟨body, rfl, fun hseparated => ?_, runs, hread, hnames⟩
  have hlength := congrArg List.length (hiff.mpr hseparated)
  have hruns := congrArg List.length hnames
  rw [List.length_map] at hlength hruns
  rw [hruns] at hlength
  cases hlength

end AcornCatalog
