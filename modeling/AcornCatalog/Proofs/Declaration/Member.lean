import AcornCatalog.Declaration.Member
import AcornCatalog.Proofs.Declaration.Block
import AcornCatalog.Proofs.Declaration.Header
import AcornCatalog.Proofs.Declaration.Indentation
import AcornCatalog.Proofs.Text.Line

/-! Blocks whose lines have something behind the code. If it has no braces the block closes at the same place, and if a
line opens the same members as without it the block has the same members. Moving the text of a block left changes
neither. -/

namespace AcornCatalog

open Text Reader

/-! ### Blocks -/

/-- The line is the code and something without braces behind it. -/
def Pads (line code : Line) : Prop := ∃ tail, '{' ∉ tail ∧ '}' ∉ tail ∧ line = code ++ tail

theorem Pads.drop {line code : Line} (h : Pads line code) (n : Nat) : Pads (line.drop n) (code.drop n) := by
  obtain ⟨tail, hopen, hclose, rfl⟩ := h
  exact ⟨tail.drop (n - code.length), fun hmem => hopen (List.mem_of_mem_drop hmem),
    fun hmem => hclose (List.mem_of_mem_drop hmem), List.drop_append⟩

theorem lineEnd_of_no_brace {line : Line} (hopen : '{' ∉ line) (hclose : '}' ∉ line) (depth : Nat) :
    lineEnd depth line = .inside depth := by
  induction line with
  | nil => rfl
  | cons c line ih =>
    simp only [List.mem_cons, not_or] at hopen hclose
    rw [lineEnd.eq_def]
    simp only [if_neg (Ne.symm hopen.1), if_neg (Ne.symm hclose.1), ih hopen.2 hclose.2, LineEnd.shift]

theorem lineEnd_append {tail : Line} (hopen : '{' ∉ tail) (hclose : '}' ∉ tail) (code : Line) (depth : Nat) :
    lineEnd depth (code ++ tail) = lineEnd depth code := by
  induction code generalizing depth with
  | nil => exact lineEnd_of_no_brace hopen hclose depth
  | cons c code ih =>
    rw [List.cons_append]
    cases depth <;> simp only [lineEnd, ih]

theorem lt_length_of_closes {line : Line} {depth column : Nat} (h : lineEnd depth line = .closes column) :
    column < line.length := by
  induction line generalizing depth column with
  | nil => cases h
  | cons c line ih =>
    have later {n : Nat} (h : (lineEnd n line).shift = .closes column) : column < (c :: line).length := by
      cases hend : lineEnd n line with
      | closes inner =>
        simp only [hend, LineEnd.shift, LineEnd.closes.injEq] at h
        have := ih hend
        simp only [List.length_cons]
        omega
      | inside m => simp [hend, LineEnd.shift] at h
    unfold lineEnd at h
    split at h
    · exact later h
    · split at h
      · cases depth with
        | zero =>
          cases h
          simp
        | succ depth => exact later h
      · exact later h

namespace Block

/-- Where a block closes, and what `f` gives for each of its lines. -/
def shape {γ : Type} (f : Line → γ) (b : Block) : Nat × Nat × List γ := (b.height, b.column, b.inner.map f)

section Shape

variable {γ : Type} {f : Line → γ}

/-- Blocks of one shape, each changed in a way that its shape tells. -/
theorem map_shape {o o' : Option Block} {move move' : Block → Block} (change : Nat × Nat × List γ → Nat × Nat × List γ)
    (h : o.map (shape f) = o'.map (shape f)) (hmove : ∀ b, shape f (move b) = change (shape f b))
    (hmove' : ∀ b, shape f (move' b) = change (shape f b)) :
    (o.map move).map (shape f) = (o'.map move').map (shape f) := by
  have hcomp : shape f ∘ move = change ∘ shape f := funext hmove
  have hcomp' : shape f ∘ move' = change ∘ shape f := funext hmove'
  rw [Option.map_map, Option.map_map, hcomp, hcomp', ← Option.map_map, ← Option.map_map, h]

theorem closeIn_shape {ls ms : List Line} (h : List.Forall₂ (fun l m => Pads l m ∧ f l = f m) ls ms) (depth : Nat) :
    (closeIn depth ls).map (shape f) = (closeIn depth ms).map (shape f) := by
  induction h generalizing depth with
  | nil => rfl
  | @cons l m ls ms hline _ ih =>
    obtain ⟨⟨tail, hopen, hclose, rfl⟩, hf⟩ := hline
    rw [closeIn, closeIn, lineEnd_append hopen hclose]
    cases hend : lineEnd depth m with
    | closes column =>
      -- the brace that closes the block stands in the code
      simp only [List.take_append_of_le_length (Nat.le_of_lt (lt_length_of_closes hend))]
    | inside left =>
      refine map_shape (fun s => (s.1 + 1, s.2.1, f m :: s.2.2)) (ih left) (fun b => ?_) fun b => ?_
      · simp only [shape, List.map_cons, hf]
      · simp only [shape, List.map_cons]

theorem capture_shape {l m : Line} {ls ms : List Line} {column : Nat}
    (hfirst : Pads (l.drop column) (m.drop column) ∧ f (l.drop column) = f (m.drop column))
    (h : List.Forall₂ (fun l m => Pads l m ∧ f l = f m) ls ms) :
    (capture (l :: ls) column).map (shape f) = (capture (m :: ms) column).map (shape f) := by
  -- the column of a block that closes on its first line is counted from the start of that line
  have hmove (b : Block) : shape f (if b.height = 0 then { b with column := column + b.column } else b) =
      (b.height, if b.height = 0 then column + b.column else b.column, b.inner.map f) := by
    unfold shape
    split <;> rfl
  exact map_shape (fun s => (s.1, if s.1 = 0 then column + s.2.1 else s.2.1, s.2.2)) (closeIn_shape (.cons hfirst h) 0)
    hmove hmove

end Shape

theorem inner_of_closeIn {depth : Nat} {ls : List Line} {b : Block} (h : closeIn depth ls = some b) :
    b.inner ≠ [] ∧ ∀ l ∈ b.inner, ∃ line ∈ ls, l <+: line := by
  induction ls generalizing depth b with
  | nil => cases h
  | cons line rest ih =>
    rw [closeIn] at h
    split at h
    · next column _ =>
      cases h
      refine ⟨List.cons_ne_nil _ _, fun l hl => ?_⟩
      obtain rfl := List.mem_singleton.mp hl
      exact ⟨line, List.mem_cons_self .., List.take_prefix column line⟩
    · obtain ⟨inner, hinner, rfl⟩ := Option.map_eq_some_iff.mp h
      refine ⟨List.cons_ne_nil _ _, fun l hl => ?_⟩
      rcases List.mem_cons.mp hl with rfl | hl
      · exact ⟨l, List.mem_cons_self .., List.prefix_refl l⟩
      · obtain ⟨line', hmem, hfront⟩ := (ih hinner).2 l hl
        exact ⟨line', List.mem_cons_of_mem _ hmem, hfront⟩

/-- A block has lines, and each stands within one of those that the block was found in. -/
theorem inner_of_capture {ls : List Line} {column : Nat} {b : Block} (h : capture ls column = some b) :
    b.inner ≠ [] ∧ ∀ l ∈ b.inner, ∃ line ∈ ls, l <:+: line := by
  cases ls with
  | nil => cases h
  | cons line rest =>
    obtain ⟨b', hclose, rfl⟩ := Option.map_eq_some_iff.mp h
    have hinner : (if b'.height = 0 then { b' with column := column + b'.column } else b').inner = b'.inner := by
      split <;> rfl
    rw [hinner]
    obtain ⟨hne, hall⟩ := inner_of_closeIn hclose
    refine ⟨hne, fun l hl => ?_⟩
    obtain ⟨line', hmem, hfront⟩ := hall l hl
    rcases List.mem_cons.mp hmem with rfl | hmem
    · exact ⟨line, List.mem_cons_self .., hfront.isInfix.trans (List.drop_suffix column line).isInfix⟩
    · exact ⟨line', List.mem_cons_of_mem _ hmem, hfront.isInfix⟩

end Block

/-! ### What a line opens -/

/-- What the block around a line gets to know of it: the member that it opens, its braces, and whether it speaks of a
    definition. -/
structure Gist where
  field : Option (List Char × List Char)
  member : Option (List Char × List Char)
  binding : Option (List Char)
  definition : Option (List Char)
  opened : Nat
  closed : Nat
  defines : Bool

def gist (line : Line) : Gist where
  field := Header.classField.read? (trim line)
  member := Header.classMember.read? (trim line)
  binding := Header.binding.read? (trim line)
  definition := Header.definition.read? (trim line)
  opened := line.count '{'
  closed := line.count '}'
  defines := occursIn "define".toList line

theorem gist_blanks_append {blanks : Line} (h : allBlank blanks = true) (line : Line) :
    gist (blanks ++ line) = gist line := by
  have hcount {c : Char} (hc : isBlank c = false) : blanks.count c = 0 :=
    List.count_eq_zero.mpr fun hmem => by simp [List.all_eq_true.mp h c hmem] at hc
  have htrim : trim (blanks ++ line) = trim line := by rw [trim, trimStart_append_of_allBlank h, trim]
  simp only [gist, htrim, List.count_append, hcount (c := '{') (by decide), hcount (c := '}') (by decide), Nat.zero_add,
    occursIn_blanks_append (w := "define".toList) (by decide) (by decide) h]

theorem gist_append {code tail : Line} (hstop : Header.Stops tail) (hopen : '{' ∉ tail) (hclose : '}' ∉ tail)
    (hdefine : occursIn "define".toList tail = false)
    (hfield : Header.classField.read? (trim (code ++ tail)) = Header.classField.read? (trim code)) :
    gist (code ++ tail) = gist code := by
  have hhead : ∀ c, tail.head? = some c → c ∉ "define".toList := fun c hc => hstop.head_not_mem (by decide) hc
  have hsteady {α : Type} {r : Reader α} (h : Header.SteadyBeforeStop r) :
      r.read? (trim (code ++ tail)) = r.read? (trim code) :=
    (Header.ignoresRemark_of_steady h).read?_trim_append hstop hopen code
  simp only [gist, hfield, Header.ignoresRemark_classMember.read?_trim_append hstop hopen code,
    hsteady Header.steady_binding, hsteady Header.steady_definition, List.count_append, List.count_eq_zero.mpr hopen,
    List.count_eq_zero.mpr hclose, Nat.add_zero, occursIn_append (w := "define".toList) (by decide) hhead, hdefine,
    Bool.or_false]

/-! ### Text moved left -/

theorem gist_of_movedLeft {line moved : Line} {n : Nat} (h : MovedLeft n line moved) : gist moved = gist line := by
  cases h with
  | blank => rfl
  | text hblank => exact (gist_blanks_append hblank moved).symm

/-- The text of a block has the lines of the block, each moved left. -/
theorem map_gist_cut_content {b : Block} (hne : b.inner ≠ []) (hfeed : ∀ l ∈ b.inner, '\n' ∉ l) :
    (cut '\n' b.content).map gist = b.inner.map gist := by
  have hcut : cut '\n' (joinLines b.inner) = b.inner := cut_intercalate hne hfeed
  rw [Block.content, cut_dedent, hcut, List.map_map]
  exact List.map_congr_left fun l hl => gist_of_movedLeft (movedLeft_moveLeft (margin_le hl))

/-! ### Members -/

/-- The block around two lines does not tell them apart. -/
abbrev Alike (l m : Line) : Prop := gist l = gist m

section Members

variable {l m : Line} {ls ms : List Line}

theorem forall₂_alike (h : ls.map gist = ms.map gist) : List.Forall₂ Alike ls ms := by
  rw [← List.forall₂_eq_eq_eq, List.forall₂_map_left_iff, List.forall₂_map_right_iff] at h
  exact h

theorem braceBalance_alike (h : Alike l m) : braceBalance l = braceBalance m := by
  have hopened : l.count '{' = m.count '{' := congrArg Gist.opened h
  have hclosed : l.count '}' = m.count '}' := congrArg Gist.closed h
  rw [braceBalance, braceBalance, hopened, hclosed]

theorem openLines_alike (h : List.Forall₂ Alike ls ms) (balance : Int) :
    openLines balance ls = openLines balance ms := by
  induction h generalizing balance with
  | nil => rfl
  | cons hline _ ih => rw [openLines, openLines, braceBalance_alike hline, ih]

theorem braceLines_alike (h : Alike l m) (hrest : List.Forall₂ Alike ls ms) :
    List.Forall₂ Alike (braceLines l ls) (braceLines m ms) := by
  rw [braceLines, braceLines, braceBalance_alike h, openLines_alike hrest]
  exact .cons h (List.forall₂_take _ hrest)

theorem attributeLines_alike (h : Alike l m) (hrest : List.Forall₂ Alike ls ms) :
    List.Forall₂ Alike (attributeLines l ls) (attributeLines m ms) := by
  have hopened : l.count '{' = m.count '{' := congrArg Gist.opened h
  have hbrace : l.contains '{' = m.contains '{' := by
    rw [Bool.eq_iff_iff, List.contains_iff_mem, List.contains_iff_mem, ← List.count_pos_iff, hopened,
      List.count_pos_iff]
  rw [attributeLines, attributeLines, hbrace]
  split
  · exact braceLines_alike h hrest
  · exact .cons h .nil

theorem occursIn_define_alike (h : List.Forall₂ Alike ls ms) :
    occursIn "define".toList (joinLines ls) = occursIn "define".toList (joinLines ms) := by
  rw [occursIn_joinLines (by decide) (by decide), occursIn_joinLines (by decide) (by decide)]
  induction h with
  | nil => rfl
  | cons hline _ ih =>
    have hdefines := congrArg Gist.defines hline
    rw [List.any_cons, List.any_cons, ih]
    exact congrArg (· || _) hdefines

/-- Idle lines need not be passed over where no member begins at them. -/
theorem membersBy_eq_sweep {α : Type} {step : Line → Line → List Line → Option (α × Nat)}
    (hidle : ∀ trimmed line rest, isIdleLine trimmed = true → step trimmed line rest = none) (body : List Char) :
    membersBy step body = sweep (fun _ line rest =>
      let found := step (trim line) line rest
      ((found.map (·.1)).toList, (found.map (·.2)).getD 0)) 0 0 (cut '\n' body) := by
  rw [membersBy]
  congr 1
  funext _ line rest
  dsimp only
  split
  · next hline => simp [hidle _ line rest hline]
  · split
    · next hread => simp [hread]
    · next hread => simp [hread]

/-- Blocks with lines that are alike have members that are alike, as far as `key` tells, if this holds of the member
    that begins at a line. -/
theorem map_membersBy {α κ : Type} {step : Line → Line → List Line → Option (α × Nat)} {key : α → κ}
    (hidle : ∀ trimmed line rest, isIdleLine trimmed = true → step trimmed line rest = none)
    (hstep : ∀ l m ls ms, Alike l m → List.Forall₂ Alike ls ms →
      (step (trim l) l ls).map (Prod.map key id) = (step (trim m) m ms).map (Prod.map key id))
    {body body' : List Char} (h : (cut '\n' body).map gist = (cut '\n' body').map gist) :
    (membersBy step body).map key = (membersBy step body').map key := by
  rw [membersBy_eq_sweep hidle, membersBy_eq_sweep hidle, ← List.filterMap_eq_map]
  refine filterMap_sweep (fun _ l m ls ms hline hrest => ?_) (forall₂_alike h) 0 0
  have hread := hstep l m ls ms hline hrest
  cases hl : step (trim l) l ls with
  | none =>
    rw [hl] at hread
    rw [Option.map_eq_none_iff.mp hread.symm]
    exact ⟨rfl, rfl⟩
  | some found =>
    rw [hl] at hread
    obtain ⟨found', hm, heq⟩ := Option.map_eq_some_iff.mp hread.symm
    obtain ⟨hkey, hused⟩ := Prod.ext_iff.mp heq
    rw [hm]
    exact ⟨congrArg (fun k => [k]) hkey.symm, hused.symm⟩

theorem eq_nil_or_slash_of_isIdleLine {trimmed : Line} (h : isIdleLine trimmed = true) :
    trimmed = [] ∨ ∃ note, trimmed = '/' :: note := by
  rcases Bool.or_eq_true_iff.mp h with h | h
  · exact Or.inl (List.isEmpty_iff.mp h)
  · obtain ⟨note, rfl⟩ := List.isPrefixOf_iff_prefix.mp h
    exact Or.inr ⟨'/' :: note, rfl⟩

theorem classMemberAt_of_isIdleLine (trimmed line : Line) (rest : List Line) (h : isIdleLine trimmed = true) :
    classMemberAt trimmed line rest = none := by
  rcases eq_nil_or_slash_of_isIdleLine h with rfl | ⟨note, rfl⟩
  · rfl
  · rfl

theorem attributeAt_of_isIdleLine (target : String) (trimmed line : Line) (rest : List Line)
    (h : isIdleLine trimmed = true) : attributeAt target trimmed line rest = none := by
  rcases eq_nil_or_slash_of_isIdleLine h with rfl | ⟨note, rfl⟩
  · rfl
  · rfl

/-- The name and kind of a class member. -/
def ClassMember.key (m : ClassMember) : String × MemberKind := (m.name, m.kind)

/-- The name and kind of an item. -/
def Item.key (i : Item) : String × Kind := (i.name, i.kind)

theorem classMembers_key {body body' : List Char} (h : (cut '\n' body).map gist = (cut '\n' body').map gist) :
    (classMembers body).map ClassMember.key = (classMembers body').map ClassMember.key := by
  refine map_membersBy classMemberAt_of_isIdleLine (fun l m ls ms hline hrest => ?_) h
  have hfield : Header.classField.read? (trim l) = Header.classField.read? (trim m) := congrArg Gist.field hline
  have hmember : Header.classMember.read? (trim l) = Header.classMember.read? (trim m) := congrArg Gist.member hline
  have hlines := braceLines_alike hline hrest
  rw [classMemberAt, classMemberAt, hfield]
  cases Header.classField.read? (trim m) with
  | some field => rfl
  | none =>
    rw [hmember]
    cases Header.classMember.read? (trim m) with
    | none => rfl
    | some read =>
      simp only [Option.map_some, Prod.map, ClassMember.key, ClassMember.law, occursIn_define_alike hlines,
        hlines.length_eq, id]

theorem attributeMembers_key (target : String) {body body' : List Char}
    (h : (cut '\n' body).map gist = (cut '\n' body').map gist) :
    (attributeMembers target body).map (·.toItem.key) = (attributeMembers target body').map (·.toItem.key) := by
  refine map_membersBy (attributeAt_of_isIdleLine target) (fun l m ls ms hline hrest => ?_) h
  have hbinding : Header.binding.read? (trim l) = Header.binding.read? (trim m) := congrArg Gist.binding hline
  have hdefinition : Header.definition.read? (trim l) = Header.definition.read? (trim m) :=
    congrArg Gist.definition hline
  have hlines := attributeLines_alike hline hrest
  rw [attributeAt, attributeAt, hbinding]
  cases Header.binding.read? (trim m) with
  | some name => simp only [Option.map_some, Prod.map, Item.key, hlines.length_eq, id]
  | none =>
    rw [hdefinition]
    cases Header.definition.read? (trim m) with
    | none => rfl
    | some name => simp only [Option.map_some, Prod.map, Item.key, hlines.length_eq, id]

end Members

end AcornCatalog
