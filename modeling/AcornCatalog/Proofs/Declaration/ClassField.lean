import AcornCatalog.Proofs.Declaration.Header
import AcornCatalog.Proofs.Declaration.Member

/-! The fields of a class. A field is its name, a colon and a type, on a line of its own. The type may be any type of
the language, but a field is read only if its type is plain: where a function type or a parenthesis stands in it, the
line is passed over, for what has a colon behind its name is no law either. -/

namespace AcornCatalog

open Text Reader Header

/-! ### Types -/

/-- The texts of types: a name, a generic type with its arguments in square brackets, a function type with one argument
    or with several in parentheses, and a type in parentheses. Blanks may stand between any two parts. -/
inductive TypeText : List Char → Prop where
  | name {n : List Char} (h : NameFrom isNameStart n) : TypeText n
  | generic {n : List Char} {args : List (List Char)} (hname : NameFrom isNameStart n) (hne : args ≠ [])
      (hargs : ∀ a ∈ args, TypeText (trim a)) : TypeText (n ++ '[' :: [','].intercalate args ++ [']'])
  | function {a b gap gap' : List Char} (ha : TypeText a) (hgap : allBlank gap = true) (hgap' : allBlank gap' = true)
      (hb : TypeText b) : TypeText (a ++ gap ++ "->".toList ++ gap' ++ b)
  | functionOf {args : List (List Char)} {b gap gap' : List Char} (hne : args ≠ [])
      (hargs : ∀ a ∈ args, TypeText (trim a)) (hgap : allBlank gap = true) (hgap' : allBlank gap' = true)
      (hb : TypeText b) : TypeText ('(' :: [','].intercalate args ++ [')'] ++ gap ++ "->".toList ++ gap' ++ b)
  | grouped {a : List Char} (ha : TypeText (trim a)) : TypeText ('(' :: a ++ [')'])

/-- A type that is no function and has none in it: its text has neither an arrow nor a parenthesis. -/
def isPlainType (t : List Char) : Bool := !t.contains '(' && !occursIn "->".toList t

/-- The characters that the type of a field may have. -/
def isFieldTypeChar (c : Char) : Bool := isNameChar c || c == '[' || c == ']' || c == ',' || isBlank c

section Types

variable {t u : List Char}

theorem isPlainType_iff : isPlainType t = true ↔ '(' ∉ t ∧ ¬"->".toList <:+: t := by
  rw [isPlainType, Bool.and_eq_true, Bool.not_eq_true', Bool.not_eq_true', ← occursIn_iff_isInfix, Bool.not_eq_true,
    ← Bool.not_eq_true, List.contains_iff_mem]

theorem isPlainType_of_isInfix (h : isPlainType t = true) (hu : u <:+: t) : isPlainType u = true := by
  obtain ⟨hparen, harrow⟩ := isPlainType_iff.mp h
  exact isPlainType_iff.mpr ⟨fun hmem => hparen (hu.subset hmem), fun hin => harrow (hin.trans hu)⟩

theorem mem_intercalate {sep c : Char} {pieces : List (List Char)} (h : c ∈ [sep].intercalate pieces) :
    c = sep ∨ ∃ p ∈ pieces, c ∈ p := by
  induction pieces with
  | nil => cases h
  | cons p pieces ih =>
    cases pieces with
    | nil =>
      rw [List.intercalate_singleton] at h
      exact Or.inr ⟨p, List.mem_cons_self .., h⟩
    | cons q pieces =>
      rw [List.intercalate_cons_cons, List.append_assoc, List.singleton_append] at h
      rcases List.mem_append.mp h with h | h
      · exact Or.inr ⟨p, List.mem_cons_self .., h⟩
      · rcases List.mem_cons.mp h with rfl | h
        · exact Or.inl rfl
        · rcases ih h with rfl | ⟨r, hr, hc⟩
          · exact Or.inl rfl
          · exact Or.inr ⟨r, List.mem_cons_of_mem _ hr, hc⟩

theorem isInfix_intercalate {sep : Char} {p : List Char} {pieces : List (List Char)} (h : p ∈ pieces) :
    p <:+: [sep].intercalate pieces := by
  induction pieces with
  | nil => cases h
  | cons q pieces ih =>
    cases pieces with
    | nil =>
      obtain rfl := List.mem_singleton.mp h
      exact ⟨[], [], by simp⟩
    | cons r pieces =>
      rw [List.intercalate_cons_cons]
      rcases List.mem_cons.mp h with rfl | h
      · exact (List.prefix_append _ _).isInfix.trans (List.prefix_append _ _).isInfix
      · exact (ih h).trans (List.suffix_append _ _).isInfix

theorem mem_generic {c : Char} {n : List Char} {args : List (List Char)}
    (h : c ∈ n ++ '[' :: [','].intercalate args ++ [']']) :
    c ∈ n ∨ c = '[' ∨ c = ',' ∨ c = ']' ∨ isBlank c = true ∨ ∃ a ∈ args, c ∈ trim a := by
  simp only [List.append_assoc, List.mem_append, List.cons_append, List.mem_cons, List.not_mem_nil, or_false] at h
  rcases h with hc | hc | hc | hc
  · exact Or.inl hc
  · exact Or.inr (Or.inl hc)
  · rcases mem_intercalate hc with hc | ⟨a, ha, hc⟩
    · exact Or.inr (Or.inr (Or.inl hc))
    · cases hblank : isBlank c with
      | true => exact Or.inr (Or.inr (Or.inr (Or.inr (Or.inl rfl))))
      | false => exact Or.inr (Or.inr (Or.inr (Or.inr (Or.inr ⟨a, ha, (mem_trim_iff hblank).mpr hc⟩))))
  · exact Or.inr (Or.inr (Or.inr (Or.inl hc)))

/-- A type has only characters that the type of a field may have exactly if it is plain. -/
theorem TypeText.all_isFieldTypeChar_iff (h : TypeText t) : t.all isFieldTypeChar = true ↔ isPlainType t = true := by
  rw [List.all_eq_true]
  constructor
  · intro hall
    rw [isPlainType_iff]
    refine ⟨fun hmem => absurd (hall '(' hmem) (by decide), fun harrow => ?_⟩
    exact absurd (hall '-' (harrow.subset (by decide))) (by decide)
  · intro hplain
    induction h with
    | name h =>
      intro c hc
      rw [isFieldTypeChar, h.name c hc]
      rfl
    | @generic n args hname hne hargs ih =>
      have hwithin : [','].intercalate args <:+: n ++ '[' :: [','].intercalate args ++ [']'] :=
        ⟨n ++ ['['], [']'], by simp⟩
      intro c hc
      rcases mem_generic hc with hc | rfl | rfl | rfl | hblank | ⟨a, ha, hc⟩
      · rw [isFieldTypeChar, hname.name c hc]
        rfl
      · rfl
      · rfl
      · rfl
      · simp [isFieldTypeChar, hblank]
      · have hinner := (trim_isInfix a).trans ((isInfix_intercalate ha).trans hwithin)
        exact ih a ha (isPlainType_of_isInfix hplain hinner) c hc
    | @function a b gap gap' =>
      refine absurd ?_ (isPlainType_iff.mp hplain).2
      exact ⟨a ++ gap, gap' ++ b, by simp⟩
    | functionOf => exact absurd (List.mem_cons_self ..) (isPlainType_iff.mp hplain).1
    | grouped => exact absurd (List.mem_cons_self ..) (isPlainType_iff.mp hplain).1

/-- A type neither begins nor ends with a blank. -/
theorem TypeText.ends (h : TypeText t) :
    (∃ c back, t = c :: back ∧ isBlank c = false) ∧ ∃ front d, t = front ++ [d] ∧ isBlank d = false := by
  have hstart {n : List Char} (hn : NameFrom isNameStart n) : ∃ c back, n = c :: back ∧ isBlank c = false := by
    obtain ⟨hhead, hname⟩ := hn
    cases n with
    | nil => cases hhead
    | cons c back => exact ⟨c, back, rfl, isBlank_eq_false_of_isNameChar (hname c (List.mem_cons_self ..))⟩
  induction h with
  | @name n h =>
    refine ⟨hstart h, ?_⟩
    obtain ⟨c, back, hn, -⟩ := hstart h
    have hne : n ≠ [] := hn ▸ List.cons_ne_nil _ _
    exact ⟨n.dropLast, n.getLast hne, (List.dropLast_append_getLast hne).symm,
      isBlank_eq_false_of_isNameChar (h.name _ (List.getLast_mem hne))⟩
  | @generic n args hname =>
    obtain ⟨c, back, rfl, hc⟩ := hstart hname
    exact ⟨⟨c, back ++ '[' :: [','].intercalate args ++ [']'], rfl, hc⟩, _, ']', rfl, by decide⟩
  | @function a b gap gap' _ _ _ _ iha ihb =>
    obtain ⟨⟨c, back, rfl, hc⟩, -⟩ := iha
    obtain ⟨-, front, d, rfl, hd⟩ := ihb
    refine ⟨⟨c, back ++ gap ++ "->".toList ++ gap' ++ (front ++ [d]), rfl, hc⟩, ?_⟩
    exact ⟨c :: back ++ gap ++ "->".toList ++ gap' ++ front, d, by simp only [List.append_assoc], hd⟩
  | @functionOf args b gap gap' _ _ _ _ _ _ ihb =>
    obtain ⟨-, front, d, rfl, hd⟩ := ihb
    refine ⟨⟨'(', _, rfl, by decide⟩, ?_⟩
    exact ⟨'(' :: [','].intercalate args ++ [')'] ++ gap ++ "->".toList ++ gap' ++ front, d,
      by simp only [List.append_assoc], hd⟩
  | grouped => exact ⟨⟨'(', _, rfl, by decide⟩, _, ')', rfl, by decide⟩

theorem TypeText.trim_eq (h : TypeText t) : trim t = t := by
  obtain ⟨⟨c, back, hc, hblank⟩, front, d, hd, hblank'⟩ := h.ends
  have hstart : trimStart t = t := by simp [trimStart, hc, hblank]
  have hend := trimEnd_append_cons hblank' front []
  rw [trim, hstart, hd]
  simpa [trimEnd] using hend

end Types

/-! ### Fields -/

/-- The name of a field: it begins with a small letter or an underscore, and no capital is in it. -/
structure IsFieldName (name : List Char) : Prop where
  head : name.head?.any isLowerStart = true
  lower : ∀ c ∈ name, isLowerChar c = true

/-- A field as declared on a line: its name, a colon and its type, with blanks around them. -/
structure Field where
  indent : List Char
  name : List Char
  beforeColon : List Char
  behindColon : List Char
  type : List Char
  trailing : List Char
  blanks : allBlank (indent ++ beforeColon ++ behindColon ++ trailing) = true
  isFieldName : IsFieldName name
  typeText : TypeText type
  unbroken : '\n' ∉ indent ++ (name ++ beforeColon ++ ':' :: (behindColon ++ type) ++ trailing)

namespace Field

/-- The declaration without the blanks around it. -/
def declaration (f : Field) : Line := f.name ++ f.beforeColon ++ ':' :: (f.behindColon ++ f.type)

/-- The line that declares the field. -/
def line (f : Field) : Line := f.indent ++ (f.declaration ++ f.trailing)

/-- The member of the class that the field stands for. -/
def member (f : Field) : ClassMember where
  name := String.ofList f.name
  kind := .field
  signature := String.ofList (f.name ++ ": ".toList ++ f.type)
  source := String.ofList f.declaration

variable (f : Field)

theorem allBlank_parts : allBlank f.indent = true ∧ allBlank f.beforeColon = true ∧ allBlank f.behindColon = true ∧
    allBlank f.trailing = true := by
  have h := f.blanks
  simp only [allBlank, List.all_append, Bool.and_eq_true, and_assoc] at h
  exact h

theorem isBlank_name {c : Char} (h : c ∈ f.name) : isBlank c = false :=
  isBlank_eq_false_of_isNameChar (isNameChar_of_isLowerChar (f.isFieldName.lower c h))

theorem name_ne_nil : f.name ≠ [] := fun h => by
  have := f.isFieldName.head
  rw [h] at this
  cases this

theorem trim_line : trim f.line = f.declaration := by
  obtain ⟨hindent, -, -, htrailing⟩ := f.allBlank_parts
  obtain ⟨-, front, d, htype, hd⟩ := f.typeText.ends
  have hstart : trimStart f.declaration = f.declaration := by
    obtain ⟨c, run, hname⟩ := List.exists_cons_of_ne_nil f.name_ne_nil
    have hc : isBlank c = false := f.isBlank_name (hname ▸ List.mem_cons_self ..)
    simp [declaration, hname, trimStart, hc]
  rw [line, trim_blanks_append hindent, trim_append_of_allBlank htrailing, trim, hstart, declaration, htype]
  have hend := trimEnd_append_cons hd (f.name ++ f.beforeColon ++ ':' :: (f.behindColon ++ front)) []
  simpa [trimEnd] using hend

theorem trim_type : trim f.type = f.type := f.typeText.trim_eq

/-! ### Reading a field -/

theorem functionName_declaration :
    functionName f.declaration = some (f.name, f.beforeColon ++ ':' :: (f.behindColon ++ f.type)) := by
  obtain ⟨c, run, hname⟩ := List.exists_cons_of_ne_nil f.name_ne_nil
  obtain ⟨hhead, hlower⟩ := f.isFieldName
  rw [hname] at hhead hlower
  rw [declaration, List.append_assoc, hname]
  refine word_cons_append hhead (fun d hd => hlower d (List.mem_cons_of_mem _ hd)) fun d hd => ?_
  -- a blank or the colon ends the name
  have hbefore := f.allBlank_parts.2.1
  cases hgap : f.beforeColon with
  | nil =>
    rw [hgap] at hd
    cases hd
    rfl
  | cons b gap =>
    rw [hgap] at hd hbefore
    cases hd
    have hblank : isBlank d = true := List.all_eq_true.mp hbefore d (List.mem_cons_self ..)
    cases hd : isLowerChar d with
    | false => rfl
    | true =>
      rw [isBlank_eq_false_of_isNameChar (isNameChar_of_isLowerChar hd)] at hblank
      cases hblank

/-- A text is read as a type if all its characters may stand in the type of a field. -/
theorem read?_type (name : List Char) {type : List Char} (hne : type ≠ []) :
    Reader.read? (span1 isFieldTypeChar >>= fun type => textEnd >>= fun _ => pure (name, type)) type =
      if type.all isFieldTypeChar then some (name, type) else none := by
  obtain ⟨c, back, rfl⟩ := List.exists_cons_of_ne_nil hne
  cases hfirst : isFieldTypeChar c with
  | false =>
    have hnone : span1 isFieldTypeChar (c :: back) = none := bind_eq_none (by simp [one, hfirst])
    rw [Reader.read?, bind_eq_none hnone, List.all_cons, hfirst]
    rfl
  | true =>
    have hspan : span1 isFieldTypeChar (c :: back) =
        some (c :: back.takeWhile isFieldTypeChar, back.dropWhile isFieldTypeChar) :=
      bind_eq_of_some (one_eq_some.mpr ⟨hfirst, rfl⟩)
    rw [Reader.read?, bind_eq_of_some hspan, List.all_cons, hfirst, Bool.true_and]
    cases hrest : back.dropWhile isFieldTypeChar with
    | nil =>
      have hback : ∀ d ∈ back, isFieldTypeChar d = true := List.dropWhile_eq_nil_iff.mp hrest
      rw [List.takeWhile_eq_self_iff.mpr hback, List.all_eq_true.mpr hback]
      rfl
    | cons d rest =>
      have hd : isFieldTypeChar d = false := by
        have := List.head?_dropWhile_not isFieldTypeChar back
        rw [hrest] at this
        simpa using this
      have hmem : d ∈ back := (List.dropWhile_suffix isFieldTypeChar).subset (hrest ▸ List.mem_cons_self ..)
      have hall : back.all isFieldTypeChar = false := List.all_eq_false.mpr ⟨d, hmem, by simp [hd]⟩
      rw [hall]
      rfl

theorem read?_classField :
    classField.read? f.declaration = if isPlainType f.type then some (f.name, f.type) else none := by
  obtain ⟨-, hbefore, hbehind, -⟩ := f.allBlank_parts
  obtain ⟨⟨c, back, htype, hc⟩, -⟩ := f.typeText.ends
  have hcolon : literal ":" (':' :: (f.behindColon ++ f.type)) = some ((), f.behindColon ++ f.type) := rfl
  have hblanks : Reader.blanks (f.behindColon ++ f.type) = some ((), f.type) := by
    rw [htype]
    exact blanks_append hbehind hc back
  have hplain : f.type.all isFieldTypeChar = isPlainType f.type :=
    Bool.eq_iff_iff.mpr f.typeText.all_isFieldTypeChar_iff
  rw [← hplain, ← read?_type f.name (htype ▸ List.cons_ne_nil _ _), Reader.read?, classField,
    bind_eq_of_some f.functionName_declaration, bind_eq_of_some (blanks_append hbefore (by decide) _),
    bind_eq_of_some hcolon, bind_eq_of_some hblanks]
  rfl

/-- What has a colon behind its name is no law. -/
theorem read?_classMember : classMember.read? f.declaration = none := by
  obtain ⟨-, hbefore, -, -⟩ := f.allBlank_parts
  generalize hrest : f.behindColon ++ f.type = rest
  have hmaybe : maybe (between '(' ')') (':' :: rest) = some (none, ':' :: rest) := rfl
  have hblanks : Reader.blanks (':' :: rest) = some ((), ':' :: rest) := rfl
  have hbrace : literal "\x7b" (':' :: rest) = none := rfl
  rw [Reader.read?, classMember, bind_eq_of_some f.functionName_declaration,
    bind_eq_of_some (blanks_append hbefore (by decide) _), hrest, bind_eq_of_some hmaybe, bind_eq_of_some hblanks,
    bind_eq_none hbrace]
  rfl

theorem classMemberAt_line (rest : List Line) :
    classMemberAt (trim f.line) f.line rest = if isPlainType f.type then some (f.member, 0) else none := by
  rw [classMemberAt, f.trim_line, f.read?_classField]
  cases isPlainType f.type with
  | true => simp only [if_true, ClassMember.field, f.trim_type, member]
  | false => simp [f.read?_classMember]

end Field

/-! ### Bodies of fields -/

/-- A line of a body that has fields only: an empty line or a comment, or a field. -/
inductive FieldLine where
  | idle (line : Line) (unbroken : '\n' ∉ line) (isIdle : isIdleLine (trim line) = true)
  | field (f : Field)

namespace FieldLine

/-- The line itself. -/
def line : FieldLine → Line
  | .idle line _ _ => line
  | .field f => f.line

/-- The field that the line declares. -/
def field? : FieldLine → Option Field
  | .idle _ _ _ => none
  | .field f => some f

theorem feed_not_mem (l : FieldLine) : '\n' ∉ l.line := by
  cases l with
  | idle line unbroken _ => exact unbroken
  | field f => exact f.unbroken

theorem classMemberAt_line (l : FieldLine) (rest : List Line) :
    classMemberAt (trim l.line) l.line rest =
      (l.field?.filter fun f => isPlainType f.type).map fun f => (f.member, 0) := by
  cases l with
  | idle line _ isIdle => exact classMemberAt_of_isIdleLine _ line rest isIdle
  | field f =>
    rw [line, f.classMemberAt_line]
    cases hplain : isPlainType f.type <;> simp [field?, Option.filter, hplain]

end FieldLine

/-- The fields that the lines of a body declare. -/
def declaredFields (body : List FieldLine) : List Field := body.filterMap FieldLine.field?

theorem sweep_fieldLines (body : List FieldLine) (number : Nat) :
    sweep (fun _ line rest =>
        let found := classMemberAt (trim line) line rest
        ((found.map (·.1)).toList, (found.map (·.2)).getD 0)) number 0 (body.map FieldLine.line) =
      ((declaredFields body).filter fun f => isPlainType f.type).map Field.member := by
  induction body generalizing number with
  | nil => rfl
  | cons l body ih =>
    rw [List.map_cons, sweep, l.classMemberAt_line]
    cases hfield : l.field? with
    | none => simpa [declaredFields, hfield] using ih (number + 1)
    | some f =>
      cases hplain : isPlainType f.type with
      | true => simpa [declaredFields, hfield, Option.filter, hplain] using ih (number + 1)
      | false => simpa [declaredFields, hfield, Option.filter, hplain] using ih (number + 1)

/-- In a body of fields, empty lines and comments, the members are the fields with a plain type, in their order and each
    with its name and its type; a field whose type is or has a function type is left out. So every field is there
    exactly if all types are plain. -/
theorem classMembers_of_fields (body : List FieldLine) :
    classMembers (joinLines (body.map FieldLine.line)) =
        ((declaredFields body).filter fun f => isPlainType f.type).map Field.member ∧
      (classMembers (joinLines (body.map FieldLine.line)) = (declaredFields body).map Field.member ↔
        ∀ f ∈ declaredFields body, isPlainType f.type = true) := by
  have hmembers : classMembers (joinLines (body.map FieldLine.line)) =
      ((declaredFields body).filter fun f => isPlainType f.type).map Field.member := by
    cases body with
    | nil => rfl
    | cons l body =>
      have hfeed : ∀ line ∈ (l :: body).map FieldLine.line, '\n' ∉ line := by
        intro line hline
        obtain ⟨m, -, rfl⟩ := List.mem_map.mp hline
        exact m.feed_not_mem
      rw [classMembers, membersBy_eq_sweep classMemberAt_of_isIdleLine, joinLines,
        cut_intercalate (by simp) hfeed, sweep_fieldLines]
  refine ⟨hmembers, ?_⟩
  rw [hmembers]
  constructor
  · intro heq
    have hlength := congrArg List.length heq
    rw [List.length_map, List.length_map] at hlength
    exact List.length_filter_eq_length_iff.mp hlength
  · intro hplain
    rw [List.filter_eq_self.mpr hplain]

/-- The operation of a class is lost and its unit is kept. -/
theorem classMembers_of_fields_operation :
    ∃ body : List FieldLine,
      body.map FieldLine.line = ["op: (M, M) -> M".toList, "// neutral".toList, "  unit: List[M]".toList] ∧
      (declaredFields body).map (fun f => String.ofList f.name) = ["op", "unit"] ∧
      (classMembers (joinLines (body.map FieldLine.line))).map (·.name) = ["unit"] := by
  have hm : TypeText "M".toList := .name ⟨rfl, by decide⟩
  have hop : TypeText "(M, M) -> M".toList :=
    @TypeText.functionOf ["M".toList, " M".toList] "M".toList [' '] [' '] (by decide) (by simpa using ⟨hm, hm⟩) rfl rfl
      hm
  have hlist : TypeText "List[M]".toList :=
    @TypeText.generic "List".toList ["M".toList] ⟨rfl, by decide⟩ (by decide) (List.forall_mem_singleton.mpr hm)
  let op : Field :=
    { indent := [], name := "op".toList, beforeColon := [], behindColon := [' '], type := "(M, M) -> M".toList,
      trailing := [], blanks := rfl, isFieldName := ⟨rfl, List.all_eq_true.mp rfl⟩, typeText := hop, unbroken := by decide }
  let unit : Field :=
    { indent := [' ', ' '], name := "unit".toList, beforeColon := [], behindColon := [' '], type := "List[M]".toList,
      trailing := [], blanks := rfl, isFieldName := ⟨rfl, List.all_eq_true.mp rfl⟩, typeText := hlist, unbroken := by decide }
  refine ⟨[.field op, .idle "// neutral".toList (by decide) rfl, .field unit], rfl, rfl, ?_⟩
  rw [(classMembers_of_fields _).1]
  rfl

end AcornCatalog
