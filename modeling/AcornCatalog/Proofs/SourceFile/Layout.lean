import AcornCatalog.Proofs.Declaration.Naming
import AcornCatalog.Proofs.Declaration.Span

/-! How declarations lie in a file. The source of a declaration is what stands in the lines from its own on, as many as
were used to read it, and the sweep goes on below these; so declarations come in the order of their lines and share
none. -/

namespace AcornCatalog

open Text

/-! ### Texts that stand in lines -/

/-- The parts stand in the lines, one in each from the first on; all but the first and the last are whole lines. -/
def StandsIn (parts ls : List Line) : Prop :=
  ∀ k part, parts[k]? = some part →
    ∃ line, ls[k]? = some line ∧ part <:+: line ∧ (0 < k → k + 1 < parts.length → part = line)

theorem standsIn_single {part line : Line} (h : part <:+: line) (below : List Line) :
    StandsIn [part] (line :: below) := by
  intro k p hp
  obtain ⟨rfl, rfl⟩ : k = 0 ∧ part = p := by
    cases k with
    | zero => exact ⟨rfl, Option.some.inj hp⟩
    | succ k => cases hp
  exact ⟨line, rfl, h, fun hk => absurd hk (Nat.lt_irrefl 0)⟩

theorem standsIn_ends {first last part part' : Line} (hfirst : part <:+: first) (hlast : part' <:+: last)
    (middle below : List Line) : StandsIn (part :: (middle ++ [part'])) (first :: (middle ++ last :: below)) := by
  intro k p hp
  cases k with
  | zero =>
    obtain rfl := Option.some.inj hp
    exact ⟨first, rfl, hfirst, fun hk => absurd hk (Nat.lt_irrefl 0)⟩
  | succ k =>
    rw [List.getElem?_cons_succ] at hp ⊢
    rcases Nat.lt_trichotomy k middle.length with hk | rfl | hk
    · rw [List.getElem?_append_left hk] at hp ⊢
      exact ⟨p, hp, List.infix_refl p, fun _ _ => rfl⟩
    · rw [List.getElem?_concat_length, Option.some.injEq] at hp
      subst hp
      refine ⟨last, by simp, hlast, fun _ hk => ?_⟩
      simp only [List.length_cons, List.length_append, List.length_nil] at hk
      omega
    · have hlength := (List.getElem?_eq_some_iff.mp hp).1
      simp only [List.length_append, List.length_cons, List.length_nil] at hlength
      omega

/-- Trimming takes away from the first and the last line only, if neither is blank. -/
theorem trim_joinLines_ends {first last : Line} {c d : Char} (hc : isBlank c = false) (hfirst : c ∈ first)
    (hd : isBlank d = false) (hlast : d ∈ last) (middle : List Line) :
    trim (joinLines (first :: (middle ++ [last]))) = joinLines (trimStart first :: (middle ++ [trimEnd last])) := by
  have hjoin (first last : Line) :
      joinLines (first :: (middle ++ [last])) = first ++ ('\n' :: fileText middle ++ last) := by
    rw [joinLines_cons (by simp), joinLines_append (List.cons_ne_nil _ _), joinLines_singleton]
    rfl
  rw [hjoin, hjoin, trim, trimStart_append_of_mem hc hfirst, ← List.append_assoc, trimEnd_append_of_mem hd hlast,
    List.append_assoc]

/-- What stands from the first line up to a closing brace, and any more of its line, fills these lines when trimmed. -/
theorem ClosingBrace.fills {line : Line} {rest : List Line} (brace : ClosingBrace (line :: rest))
    (hfeed : ∀ l ∈ line :: rest, '\n' ∉ l) {c : Char} (hc : isBlank c = false) (hline : c ∈ line) {tail : Line}
    (htail : tail <+: brace.behind) :
    (cut '\n' (trim (brace.text ++ tail))).length = brace.above.length + 1 ∧
      StandsIn (cut '\n' (trim (brace.text ++ tail))) (line :: rest) := by
  rw [brace.text_eq]
  obtain ⟨above, front, behind, below, hlines⟩ := brace
  have hpart : front ++ '}' :: tail <:+: front ++ '}' :: behind :=
    (List.prefix_append_right_inj front |>.mpr (List.cons_prefix_cons.mpr ⟨rfl, htail⟩)).isInfix
  cases above with
  | nil =>
    obtain ⟨rfl, rfl⟩ := List.cons.inj hlines
    have htext : fileText [] ++ front ++ ['}'] ++ tail = front ++ '}' :: tail := by simp [fileText]
    have hstands := (trim_isInfix (front ++ '}' :: tail)).trans hpart
    have hnone : '\n' ∉ trim (front ++ '}' :: tail) := fun hmem =>
      hfeed _ (List.mem_cons_self ..) (hstands.subset hmem)
    simp only [htext, cut_of_not_mem hnone]
    exact ⟨rfl, standsIn_single hstands rest⟩
  | cons first above =>
    obtain ⟨rfl, rfl⟩ := List.cons.inj (hlines.trans List.cons_append)
    have htext : fileText (line :: above) ++ front ++ ['}'] ++ tail =
        joinLines (line :: (above ++ [front ++ '}' :: tail])) := by
      rw [← List.cons_append, joinLines_append (List.cons_ne_nil _ _), joinLines_singleton]
      simp
    have hlast : trimEnd (front ++ '}' :: tail) <:+: front ++ '}' :: behind := (trimEnd_isPrefix _).isInfix.trans hpart
    have hcut : cut '\n' (joinLines (trimStart line :: (above ++ [trimEnd (front ++ '}' :: tail)]))) =
        trimStart line :: (above ++ [trimEnd (front ++ '}' :: tail)]) := by
      refine cut_intercalate (List.cons_ne_nil _ _) fun piece hpiece hmem => ?_
      rcases List.mem_cons.mp hpiece with rfl | hpiece
      · exact hfeed line (List.mem_cons_self ..) ((trimStart_isSuffix line).subset hmem)
      · rcases List.mem_append.mp hpiece with hpiece | hpiece
        · exact hfeed piece (by simp [hpiece]) hmem
        · obtain rfl := List.mem_singleton.mp hpiece
          exact hfeed (front ++ '}' :: behind) (by simp) (hlast.subset hmem)
    rw [htext, trim_joinLines_ends hc hline (d := '}') (by decide) (by simp) above, hcut]
    exact ⟨by simp, standsIn_ends (trimStart_isSuffix line).isInfix hlast above below⟩

/-! ### Declarations in their lines -/

/-- The source of an item stands in the lines from the first on and reaches `used` lines below it. -/
structure Item.Fills (item : Item) (ls : List Line) (used : Nat) : Prop where
  feeds : item.source.toList.count '\n' = used
  stands : StandsIn (cut '\n' item.source.toList) ls

section Read

variable {place : Place} {line : Line} {rest : List Line} {used : Nat} {item : Item}

theorem Item.Fills.ofBrace (brace : ClosingBrace (line :: rest)) (hfeed : ∀ l ∈ line :: rest, '\n' ∉ l) {lead : Line}
    (hline : lead ++ ['{'] <+: line) {tail : Line} (htail : tail <+: brace.behind)
    (hsource : item.source = String.ofList (trim (brace.text ++ tail))) (hused : brace.above.length = used) :
    item.Fills (line :: rest) used := by
  have hmem : '{' ∈ line := hline.subset (by simp)
  obtain ⟨hlength, hstands⟩ := brace.fills hfeed (c := '{') (by decide) hmem htail
  rw [length_cut, hused, Nat.add_right_cancel_iff] at hlength
  constructor
  · rw [hsource, String.toList_ofList]
    exact hlength
  · rw [hsource, String.toList_ofList]
    exact hstands

/-- A source fills the lines that it lies in. -/
theorem Item.Spanned.fills (h : item.Spanned line rest used) (hfeed : ∀ l ∈ line :: rest, '\n' ∉ l) :
    item.Fills (line :: rest) used := by
  obtain ⟨lead, gap, tail, h⟩ := h
  have hsource : item.source = String.ofList item.source.toList := String.ofList_toList.symm
  generalize item.source.toList = source at h hsource
  cases h with
  | bare _ _ hused =>
    have hstands := trim_isInfix line
    have hnone : '\n' ∉ trim line := fun hmem => hfeed line (List.mem_cons_self ..) (hstands.subset hmem)
    constructor
    · rw [hsource, String.toList_ofList, List.count_eq_zero.mpr hnone, hused]
    · rw [hsource, String.toList_ofList, cut_of_not_mem hnone]
      exact standsIn_single hstands rest
  | @block _ _ brace _ hline _ _ hused => exact .ofBrace brace hfeed hline (brace.taken_prefix _) hsource hused
  | @blocks _ _ _ _ _ last _ hline _ _ _ _ _ _ hused =>
    exact .ofBrace last hfeed hline (last.taken_prefix _) hsource hused

end Read

/-! ### Steps through a file -/

/-- What a step through a file finds lies in the lines that it uses: an item that stands alone fills them, and only the
    first can stand alone. -/
structure LaysOut (ls : List Line) (found : List Entry × Nat) : Prop where
  fills : ∀ d, Entry.declared d ∈ found.1 → d.item.kind.standsAlone = true → d.item.Fills ls found.2
  single : ∀ d, Entry.declared d ∈ found.1.tail → d.item.kind.standsAlone = false

section Steps

variable {line : Line} {rest : List Line}

/-- Of what a step finds, only the first can stand alone. -/
def FirstAlone (found : List Entry × Nat) : Prop :=
  ∀ d, Entry.declared d ∈ found.1.tail → d.item.kind.standsAlone = false

theorem FirstAlone.imports (is : List Import) : FirstAlone (is.map .imported, 0) := by
  intro d h
  obtain ⟨i, -, heq⟩ := List.mem_map.mp (List.mem_of_mem_tail h)
  cases heq

theorem FirstAlone.ofReading {α : Type} {declare : α → List Declaration} {reading : Option (α × Nat)}
    (h : ∀ a used, reading = some (a, used) → ∀ d ∈ (declare a).tail, d.item.kind.standsAlone = false) :
    FirstAlone (Entry.ofReading declare reading) := by
  cases reading with
  | none => exact .imports []
  | some read =>
    intro d hd
    rw [Entry.ofReading, ← List.map_tail] at hd
    obtain ⟨e, he, heq⟩ := List.mem_map.mp hd
    cases heq
    exact h read.1 read.2 rfl d he

theorem FirstAlone.ofOne {α : Type} {declare : α → Declaration} {reading : Option (α × Nat)} :
    FirstAlone (Entry.ofReading (fun a => [declare a]) reading) :=
  .ofReading fun _ _ _ _ h => by cases h

theorem entriesAt_firstAlone (file : SourcePath) (number : Nat) : FirstAlone (entriesAt file number line rest) := by
  refine entriesAt_induction (.imports []) .imports .ofOne .ofOne
    (.ofReading fun d used h e he => TypeClass.standsAlone_expand he) .ofOne .ofOne .ofOne
    (.ofReading fun d used h e he => ?_)
  obtain ⟨m, hm, rfl⟩ := List.mem_map.mp (List.mem_of_mem_tail he)
  exact AttributesBlock.standsAlone_located h hm

theorem entriesAt_laysOut (file : SourcePath) (number : Nat) (hfeed : ∀ l ∈ line :: rest, '\n' ∉ l) :
    LaysOut (line :: rest) (entriesAt file number line rest) where
  fills d hd halone := ((entriesAt_declares file number line rest d hd).spanned halone).fills hfeed
  single := entriesAt_firstAlone file number

end Steps

/-! ### Files -/

/-- A sweep keeps an order that each step keeps within what it finds and against all that lies below the lines it
    uses. -/
theorem sweep_pairwise {α : Type} {R : α → α → Prop} {lies : Nat → α → Prop}
    {step : Nat → Line → List Line → List α × Nat} {number used : Nat} {ls : List Line}
    (hlies : ∀ number line rest, ∀ a ∈ (step number line rest).1, lies number a)
    (hstep : ∀ number line rest, line :: rest <:+ ls → (step number line rest).1.Pairwise R ∧
      ∀ a ∈ (step number line rest).1, ∀ m b, number + (step number line rest).2 < m → lies m b → R a b) :
    (sweep step number used ls).Pairwise R := by
  fun_induction sweep step number used ls with
  | case1 => exact .nil
  | case2 number used line rest ih =>
    exact ih fun number l ls hls => hstep number l ls (hls.trans (List.suffix_cons line rest))
  | case3 number line rest found used hfound ih =>
    have hrest := ih fun number l ls hls => hstep number l ls (hls.trans (List.suffix_cons line rest))
    obtain ⟨hwithin, hbelow⟩ := hstep number line rest (List.suffix_refl _)
    rw [hfound] at hwithin hbelow
    refine List.pairwise_append.mpr ⟨hwithin, hrest, fun a ha b hb => ?_⟩
    obtain ⟨k, l, hk, -, hmem⟩ := mem_sweep hb
    exact hbelow a ha (number + 1 + k) b (by omega) (hlies _ _ _ b hmem)

/-- A declaration stands above another if its line is not below the other's, and if its source ends above the other's
    line where both stand alone. -/
def Declaration.Above (d e : Declaration) : Prop :=
  ∀ here there, d.item.location = some here → e.item.location = some there →
    here.line ≤ there.line ∧
      (d.item.kind.standsAlone = true → e.item.kind.standsAlone = true →
        here.line + d.item.source.toList.count '\n' < there.line)

theorem Declaration.Above.enrich {d e : Declaration} (h : d.Above e) (file : SourcePath) :
    (d.enrich file).Above (e.enrich file) := by
  rw [Declaration.enrich, Declaration.enrich, Above, Declaration.item_modify, Declaration.item_modify]
  exact h

/-- Relates entries as the declarations in them are related. -/
def Entry.Lift (R : Declaration → Declaration → Prop) (a b : Entry) : Prop :=
  ∀ d e, a = .declared d → b = .declared e → R d e

theorem LaysOut.above {file : SourcePath} {number : Nat} {ls : List Line} {found : List Entry × Nat}
    (h : LaysOut ls found) (hat : DeclaresAt ⟨file, number⟩ found) :
    found.1.Pairwise (Entry.Lift Declaration.Above) ∧
      ∀ a ∈ found.1, ∀ m b, number + found.2 < m →
        (∀ e, b = .declared e → e.item.location = some (Place.location ⟨file, m⟩)) →
          Entry.Lift Declaration.Above a b := by
  obtain ⟨hfills, hsingle⟩ := h
  constructor
  · have hpair (a : Entry) (ha : a ∈ found.1) (b : Entry) (hb : b ∈ found.1.tail) :
        Entry.Lift Declaration.Above a b := by
      rintro d e rfl rfl here there hhere hthere
      have hd := (hat d ha).location.symm.trans hhere
      have he := (hat e (List.mem_of_mem_tail hb)).location.symm.trans hthere
      cases hd
      cases he
      refine ⟨Int.le_refl _, fun _ halone => ?_⟩
      rw [hsingle e hb] at halone
      cases halone
    cases hfound : found.1 with
    | nil => exact .nil
    | cons a as =>
      rw [hfound] at hpair
      refine List.pairwise_cons.mpr ⟨hpair a (List.mem_cons_self ..), ?_⟩
      exact List.pairwise_of_forall_mem_list fun b hb c hc => hpair b (List.mem_cons_of_mem a hb) c hc
  · rintro a ha m b hm hb d e rfl rfl here there hhere hthere
    have hd := (hat d ha).location.symm.trans hhere
    have he := (hb e rfl).symm.trans hthere
    cases hd
    cases he
    constructor
    · simp only [Place.location]
      omega
    · intro halone _
      rw [(hfills d ha halone).feeds]
      simp only [Place.location]
      omega

namespace SourceFile

/-- Declarations come in the order of their lines. The source of one that stands alone is what stands in the file from
    its line on, and ends above the line of the next that stands alone. -/
theorem declarations_lie_apart (file : SourcePath) (text : List Char) :
    (ofText file text).declarations.Pairwise Declaration.Above ∧
      ∀ d ∈ (ofText file text).declarations, ∃ number < (lines (unifyBreaks text)).length,
        d.item.location = some ⟨file, number + 1⟩ ∧
          (d.item.kind.standsAlone = true →
            StandsIn (cut '\n' d.item.source.toList) ((lines (unifyBreaks text)).drop number)) := by
  have hfeed : ∀ l ∈ lines (unifyBreaks text), '\n' ∉ l := fun l hl hmem =>
    absurd (unbroken_of_mem_lines hl '\n' hmem) (by decide)
  have hlays (number : Nat) (line : Line) (rest : List Line) (hrest : line :: rest <:+ lines (unifyBreaks text)) :
      LaysOut (line :: rest) (entriesAt file number line rest) :=
    entriesAt_laysOut file number fun l hl => hfeed l (hrest.subset hl)
  constructor
  · refine List.pairwise_filterMap.mpr ?_
    have habove : (entries file (lines (unifyBreaks text))).Pairwise (Entry.Lift Declaration.Above) :=
      sweep_pairwise (fun number line rest a ha e he => (entriesAt_declaresAt number line rest e (he ▸ ha)).location)
        fun number line rest hrest => (hlays number line rest hrest).above (entriesAt_declaresAt number line rest)
    refine habove.imp @fun a b hlift d hd e he => ?_
    cases a with
    | imported i => cases hd
    | declared d =>
      cases b with
      | imported i => cases he
      | declared e =>
        cases hd
        cases he
        exact (hlift d e rfl rfl).enrich file
  · intro d hd
    obtain ⟨entry, hentry, heq⟩ := List.mem_filterMap.mp hd
    cases entry with
    | imported i => cases heq
    | declared e =>
      cases heq
      obtain ⟨k, line, -, hk, hmem⟩ := mem_sweep hentry
      rw [Nat.zero_add] at hmem
      obtain ⟨hlength, rfl⟩ := List.getElem?_eq_some_iff.mp hk
      have hdrop := List.drop_eq_getElem_cons hlength
      refine ⟨k, hlength, ?_⟩
      rw [Declaration.enrich, Declaration.item_modify, hdrop]
      refine ⟨(entriesAt_declaresAt k _ _ e hmem).location, fun halone => ?_⟩
      exact ((hlays k _ _ (hdrop ▸ List.drop_suffix ..)).fills e hmem halone).stands

end SourceFile

end AcornCatalog
