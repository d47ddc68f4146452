import AcornCatalog.Proofs.Store.Statements
import AcornCatalog.Service
import AcornCatalog.Tool
import Mathlib.Data.List.Forall2

/-! The two front ends on one store. Tools and requests may come in any order; each leaves the store as it was or adds
one theorem or one definition, and says so. So every name shows what was first added under it. -/

namespace AcornCatalog.FrontEnd

open Store Service

/-! ### Requests and replies -/

/-- What the front ends can be asked: tools by their names, and the requests of the web front end. -/
inductive Request where
  | tool (name : String) (arguments : Tool.Arguments)
  | createTheorem (name head proof raw : String)
  | createDefinition (name definition : String)
  | readTheorem (name : String)
  | readDefinition (name : String)
  | readItem (name : String)
  | readItemByUuid (uuid : String)
  | readPage (page : StaticPage) (fileExists : Bool)
  | listTheorems (page pageSize : Nat) (query : Option String)
  | listDefinitions (page pageSize : Nat) (query : Option String)
  | listItems (page pageSize : Nat) (query kind : Option String)

/-- A reply: the one text of a tool, or the record that answers a request unless it fails. -/
inductive Reply where
  | text (t : String)
  | record (answer : Answer Json)

/-- The reply to a request that adds a row, and the store it leaves. -/
def created {α : Type} (s : Store) (columns : α → List (String × Json)) : Answer (α × Store) → Reply × Store
  | .ok (row, next) => (.record (.ok (.obj (columns row))), next)
  | .error failure => (.record (.error failure), s)

/-- The reply to a request, and the store it leaves. -/
def Request.perform (clock : String) (s : Store) : Request → Reply × Store
  | .tool name arguments => ((Tool.call clock name arguments s).map .text id)
  | .createTheorem name head proof raw =>
    created s TheoremRow.columns (Service.createTheorem clock name head proof raw s)
  | .createDefinition name definition =>
    created s DefinitionRow.columns (Service.createDefinition clock name definition s)
  | .readTheorem name => (.record ((Service.readTheorem name s).map TheoremRow.json), s)
  | .readDefinition name => (.record ((Service.readDefinition name s).map DefinitionRow.json), s)
  | .readItem name => (.record ((Service.readItem name s).map ItemRow.json), s)
  | .readItemByUuid uuid => (.record ((Service.readItemByUuid uuid s).map ItemRow.json), s)
  | .readPage page fileExists => (.record ((servePage fileExists page).map .str), s)
  | .listTheorems page pageSize query =>
    (.record ((theoremPage page pageSize query s).map fun p =>
      p.json "theorems" TheoremRow.json [("query", .ofText? query)]), s)
  | .listDefinitions page pageSize query =>
    (.record ((definitionPage page pageSize query s).map fun p =>
      p.json "definitions" DefinitionRow.json [("query", .ofText? query)]), s)
  | .listItems page pageSize query kind =>
    (.record ((itemPage page pageSize query kind s).map fun p =>
      p.json "items" ItemRow.json [("query", .ofText? query), ("kind", .ofText? kind)]), s)

/-- The store after some requests, each with the time at which it is made. -/
def after (s : Store) (history : List (String × Request)) : Store :=
  history.foldl (fun s request => (request.2.perform request.1 s).2) s

/-- Where a reply reports that a row was added: by the text of a tool, or by a record in answer to an addition. -/
def reported : Request → Reply → Option Table
  | .tool _ _, .text t =>
    if "Successfully added theorem: ".toList <+: t.toList then some .theorems
    else if "Successfully added definition: ".toList <+: t.toList then some .definitions
    else none
  | .createTheorem _ _ _ _, .record (.ok _) => some .theorems
  | .createDefinition _ _, .record (.ok _) => some .definitions
  | _, _ => none

/-- The theorem that a request puts forward. -/
def Request.theorem? : Request → Option NewTheorem
  | .tool "add_theorem" arguments => do
    let name ← arguments.lookup "name"
    let head ← arguments.lookup "theorem_head"
    let proof ← arguments.lookup "proof"
    let raw ← arguments.lookup "raw"
    return { name := some name, head := some head, proof := some proof, raw := some raw }
  | .createTheorem name head proof raw =>
    some { name := some name, head := some head, proof := some proof, raw := some raw }
  | _ => none

/-- The definition that a request puts forward. -/
def Request.definition? : Request → Option NewDefinition
  | .tool "add_definition" arguments => do
    let name ← arguments.lookup "name"
    let definition ← arguments.lookup "definition"
    return { name := some name, definition := some definition }
  | .createDefinition name definition => some { name := some name, definition := some definition }
  | _ => none

/-! ### What tools say -/

section Tools
variable {clock name text : String} {arguments : Tool.Arguments} {s t : Store}

theorem bind_eq_ok {ε α β : Type} {x : Except ε α} {f : α → Except ε β} {b : β} (h : x >>= f = .ok b) :
    ∃ a, x = .ok a ∧ f a = .ok b := by
  cases x with
  | error e => cases h
  | ok a => exact ⟨a, rfl, h⟩

theorem mapError_eq_ok {ε δ α : Type} {x : Except ε α} {f : ε → δ} {a : α} (h : x.mapError f = .ok a) : x = .ok a := by
  cases x with
  | error e => cases h
  | ok b => exact congrArg _ (Except.ok.inj h)

theorem argument_eq_ok {key value : String} (h : Tool.argument arguments key = .ok value) :
    arguments.lookup key = some value := by
  unfold Tool.argument at h
  split at h
  · cases h
    assumption
  · cases h

theorem head_text_obj (fields : List (String × Json)) : (Json.obj fields).text.toList.head? = some '\x7b' := by
  cases fields with
  | nil => rfl
  | cons field fields => simp [Json.text, Json.pretty]

theorem head_text_arr (items : List Json) : (Json.arr items).text.toList.head? = some '[' := by
  cases items with
  | nil => rfl
  | cons item items => simp [Json.text, Json.pretty]

theorem head_reference : reference.toList.head? = some '#' := by
  have hlines : referenceLines = "# Acorn Syntax Reference" :: referenceLines.tail := rfl
  rw [reference, hlines, List.map_cons, String.join_cons]
  simp only [String.toList_append, List.append_assoc]
  rfl

/-- A text that does not begin with a capital S reports nothing. -/
theorem reported_eq_none (h : text.toList.head? ≠ some 'S') : reported (.tool name arguments) (.text text) = none := by
  have hlead : ∀ lead : List Char, lead.head? = some 'S' → ¬lead <+: text.toList := by
    rintro lead hlead ⟨rest, hrest⟩
    rw [← hrest, List.head?_append, hlead] at h
    exact h rfl
  simp only [reported]
  rw [if_neg (hlead _ rfl), if_neg (hlead _ rfl)]

/-- A tool that adds nothing leaves the store as it was, and its answer reports nothing. -/
theorem run_silent {tool : Tool} (hth : tool ≠ .addTheorem) (hdef : tool ≠ .addDefinition)
    (h : tool.run clock arguments s = .ok (text, t)) : t = s ∧ text.toList.head? ≠ some 'S' := by
  cases tool with
  | addTheorem => exact absurd rfl hth
  | addDefinition => exact absurd rfl hdef
  | getTheorem =>
    obtain ⟨name, -, h⟩ := bind_eq_ok h
    obtain ⟨row?, -, h⟩ := bind_eq_ok h
    cases row? <;> cases h
    · exact ⟨rfl, by simp⟩
    · exact ⟨rfl, by rw [TheoremRow.json, head_text_obj]; decide⟩
  | listTheorems =>
    obtain ⟨rows, -, h⟩ := bind_eq_ok h
    cases h
    exact ⟨rfl, by rw [head_text_arr]; decide⟩
  | getDefinition =>
    obtain ⟨name, -, h⟩ := bind_eq_ok h
    obtain ⟨row?, -, h⟩ := bind_eq_ok h
    cases row? <;> cases h
    · exact ⟨rfl, by simp⟩
    · exact ⟨rfl, by rw [DefinitionRow.json, head_text_obj]; decide⟩
  | listDefinitions =>
    obtain ⟨rows, -, h⟩ := bind_eq_ok h
    cases h
    exact ⟨rfl, by rw [head_text_arr]; decide⟩
  | syntaxReference =>
    obtain ⟨rfl, rfl⟩ := Prod.mk.inj (Except.ok.inj h)
    exact ⟨rfl, by rw [head_reference]; decide⟩
  | checkSource =>
    obtain ⟨source, -, h⟩ := bind_eq_ok h
    cases h
    exact ⟨rfl, by rw [Check.Report.json, head_text_obj]; decide⟩

end Tools

/-! ### What one request does -/

/-- What a request can make of the store, and what it then replies: nothing, and no word of an addition; or one row
    more, which holds what was put forward and which the reply reports. -/
inductive Step (clock : String) (s : Store) (r : Request) : Reply → Store → Prop where
  | same {reply : Reply} (silent : reported r reply = none) : Step clock s r reply s
  | theoremAdded {reply : Reply} {new : NewTheorem} {before : List TheoremRow} {row : TheoremRow}
      (asked : r.theorem? = some new) (there : s.theorems = some before)
      (allowed : theoremRow? before clock new = some row) (said : reported r reply = some .theorems) :
      Step clock s r reply { s with theorems := some (before ++ [row]) }
  | definitionAdded {reply : Reply} {new : NewDefinition} {before : List DefinitionRow} {row : DefinitionRow}
      (asked : r.definition? = some new) (there : s.definitions = some before)
      (allowed : definitionRow? before clock new = some row) (said : reported r reply = some .definitions) :
      Step clock s r reply { s with definitions := some (before ++ [row]) }

section Steps
variable {clock name : String} {arguments : Tool.Arguments} {s : Store}

theorem name_of_ofName? {tool : Tool} (h : Tool.ofName? name = some tool) : name = tool.name := by
  unfold Tool.ofName? at h
  have hname := List.find?_some h
  exact (beq_iff_eq.mp hname).symm

theorem call_addTheorem_step {text : String} {t : Store}
    (h : Tool.addTheorem.run clock arguments s = .ok (text, t)) :
    Step clock s (.tool "add_theorem" arguments) (.text text) t := by
  obtain ⟨name, hname, h⟩ := bind_eq_ok h
  obtain ⟨head, hhead, h⟩ := bind_eq_ok h
  obtain ⟨proof, hproof, h⟩ := bind_eq_ok h
  obtain ⟨raw, hraw, h⟩ := bind_eq_ok h
  obtain ⟨⟨row, next⟩, hadd, h⟩ := bind_eq_ok h
  cases h
  obtain ⟨before, there, allowed, rfl⟩ := insertRow_eq_ok (mapError_eq_ok hadd)
  refine .theoremAdded ?_ there allowed ?_
  · simp only [Request.theorem?, argument_eq_ok hname, argument_eq_ok hhead, argument_eq_ok hproof, argument_eq_ok hraw]
    rfl
  · simp [reported]

theorem call_addDefinition_step {text : String} {t : Store}
    (h : Tool.addDefinition.run clock arguments s = .ok (text, t)) :
    Step clock s (.tool "add_definition" arguments) (.text text) t := by
  obtain ⟨name, hname, h⟩ := bind_eq_ok h
  obtain ⟨definition, hdefinition, h⟩ := bind_eq_ok h
  obtain ⟨⟨row, next⟩, hadd, h⟩ := bind_eq_ok h
  cases h
  obtain ⟨before, there, allowed, rfl⟩ := insertRow_eq_ok (mapError_eq_ok hadd)
  refine .definitionAdded ?_ there allowed ?_
  · simp only [Request.definition?, argument_eq_ok hname, argument_eq_ok hdefinition]
    rfl
  · simp [reported]

theorem call_step (clock name : String) (arguments : Tool.Arguments) (s : Store) :
    Step clock s (.tool name arguments) (.text (Tool.call clock name arguments s).1)
      (Tool.call clock name arguments s).2 := by
  cases htool : Tool.ofName? name with
  | none =>
    simp only [Tool.call, htool]
    exact .same (reported_eq_none (by simp))
  | some tool =>
    obtain rfl := name_of_ofName? htool
    cases hrun : tool.run clock arguments s with
    | error failure =>
      simp only [Tool.call, htool, hrun]
      exact .same (reported_eq_none (by simp))
    | ok answer =>
      simp only [Tool.call, htool, hrun]
      by_cases hth : tool = .addTheorem
      · subst hth
        exact call_addTheorem_step hrun
      · by_cases hdef : tool = .addDefinition
        · subst hdef
          exact call_addDefinition_step hrun
        · obtain ⟨hsame, hhead⟩ := run_silent hth hdef hrun
          rw [hsame]
          exact .same (reported_eq_none hhead)

theorem addition_eq_ok {α : Type} {x : Except Fault α} {a : α} (h : addition x = .ok a) : x = .ok a := by
  unfold addition at h
  split at h <;> cases h
  rfl

theorem perform_step (clock : String) (s : Store) (r : Request) :
    Step clock s r (r.perform clock s).1 (r.perform clock s).2 := by
  cases r with
  | tool name arguments => exact call_step clock name arguments s
  | createTheorem name head proof raw =>
    simp only [Request.perform]
    cases hadd : Service.createTheorem clock name head proof raw s with
    | error failure => exact .same rfl
    | ok added =>
      obtain ⟨before, there, allowed, hnext⟩ := insertRow_eq_ok (addition_eq_ok hadd)
      simp only [created, hnext]
      exact .theoremAdded rfl there allowed rfl
  | createDefinition name definition =>
    simp only [Request.perform]
    cases hadd : Service.createDefinition clock name definition s with
    | error failure => exact .same rfl
    | ok added =>
      obtain ⟨before, there, allowed, hnext⟩ := insertRow_eq_ok (addition_eq_ok hadd)
      simp only [created, hnext]
      exact .definitionAdded rfl there allowed rfl
  | _ => exact .same rfl

end Steps

/-! ### What a table holds after some requests -/

/-- What was added to a table, by the requests whose replies report it, with the times; `put` is what a request puts
    forward. -/
def additions {ν : Type} (table : Table) (put : Request → Option ν) :
    Store → List (String × Request) → List (String × ν)
  | _, [] => []
  | s, (clock, r) :: rest =>
    (if reported r (r.perform clock s).1 = some table then (put r).toList.map (clock, ·) else []) ++
      additions table put (r.perform clock s).2 rest

/-- A table grows by one row, which holds what is put forward, when a reply reports it, and stays as it was when none
    does. -/
def GrowsAsReported {α ν : Type} (table : Table) (rowsOf : Store → Option (List α)) (put : Request → Option ν)
    (Holds : String × ν → α → Prop) : Prop :=
  ∀ clock s r before, rowsOf s = some before →
    (reported r (r.perform clock s).1 = some table ∧ ∃ new row, put r = some new ∧ Holds (clock, new) row ∧
      rowsOf (r.perform clock s).2 = some (before ++ [row])) ∨
    (reported r (r.perform clock s).1 ≠ some table ∧ rowsOf (r.perform clock s).2 = some before)

/-- A row holds a theorem that was put forward at a time. -/
def TheoremAt (added : String × NewTheorem) (row : TheoremRow) : Prop :=
  HoldsTheorem added.2 row ∧ row.createdAt = added.1

/-- A row holds a definition that was put forward at a time. -/
def DefinitionAt (added : String × NewDefinition) (row : DefinitionRow) : Prop :=
  HoldsDefinition added.2 row ∧ row.createdAt = added.1

theorem theorems_grow : GrowsAsReported .theorems (·.theorems) Request.theorem? TheoremAt := by
  intro clock s r before hs
  have hstep := perform_step clock s r
  generalize r.perform clock s = result at hstep ⊢
  obtain ⟨reply, next⟩ := result
  cases hstep with
  | same silent => exact Or.inr ⟨by rw [silent]; nofun, hs⟩
  | theoremAdded asked there allowed said =>
    cases hs.symm.trans there
    obtain ⟨holds, -, htime⟩ := theoremRow?_eq_some allowed
    exact Or.inl ⟨said, _, _, asked, ⟨holds, htime⟩, rfl⟩
  | definitionAdded asked there allowed said => exact Or.inr ⟨by rw [said]; nofun, hs⟩

theorem definitions_grow : GrowsAsReported .definitions (·.definitions) Request.definition? DefinitionAt := by
  intro clock s r before hs
  have hstep := perform_step clock s r
  generalize r.perform clock s = result at hstep ⊢
  obtain ⟨reply, next⟩ := result
  cases hstep with
  | same silent => exact Or.inr ⟨by rw [silent]; nofun, hs⟩
  | theoremAdded asked there allowed said => exact Or.inr ⟨by rw [said]; nofun, hs⟩
  | definitionAdded asked there allowed said =>
    cases hs.symm.trans there
    obtain ⟨holds, -, htime⟩ := definitionRow?_eq_some allowed
    exact Or.inl ⟨said, _, _, asked, ⟨holds, htime⟩, rfl⟩

section Tables
variable {α ν : Type} {table : Table} {rowsOf : Store → Option (List α)} {put : Request → Option ν}
  {Holds : String × ν → α → Prop}

/-- The rows of a table are those that were there, and then what was added, in this order. -/
theorem GrowsAsReported.after (h : GrowsAsReported table rowsOf put Holds) (history : List (String × Request))
    {s : Store} {before : List α} (hs : rowsOf s = some before) :
    ∃ new, rowsOf (after s history) = some (before ++ new) ∧
      List.Forall₂ Holds (additions table put s history) new := by
  induction history generalizing s before with
  | nil => exact ⟨[], by simpa [FrontEnd.after] using hs, .nil⟩
  | cons request history ih =>
    obtain ⟨clock, r⟩ := request
    rcases h clock s r before hs with ⟨said, new, row, asked, holds, hnext⟩ | ⟨silent, hnext⟩
    · obtain ⟨rest, hrest, hadded⟩ := ih hnext
      rw [List.append_assoc] at hrest
      refine ⟨row :: rest, hrest, ?_⟩
      simp only [additions, said, asked, if_true]
      exact .cons holds hadded
    · obtain ⟨rest, hrest, hadded⟩ := ih hnext
      refine ⟨rest, hrest, ?_⟩
      simp only [additions, silent, if_false]
      exact hadded

/-- The first row of a name holds what was first added under that name. -/
theorem find?_of_forall₂ {nameOf : ν → Option String} {nameIn : α → String}
    (hname : ∀ added row, Holds added row → nameOf added.2 = some (nameIn row)) {added : List (String × ν)}
    {rows : List α} (h : List.Forall₂ Holds added rows) (name : String) :
    Option.Rel Holds (added.find? fun a => nameOf a.2 == some name)
      (rows.find? fun r => some (nameIn r) == some name) := by
  induction h with
  | nil => exact .none
  | @cons a row added rows holds _ ih =>
    rw [List.find?_cons, List.find?_cons, hname a row holds]
    split
    · exact .some holds
    · exact ih

end Tables

/-! ### What a name shows -/

/-- Both front ends show what was added under a name, if anything was, and say otherwise that it is not found. -/
def ShowsTheorem (s : Store) (name : String) : Option (String × NewTheorem) → Prop
  | some added => ∃ row, TheoremAt added row ∧ readTheorem name s = .ok row ∧
      ∀ clock arguments, arguments.lookup "name" = some name →
        Tool.call clock "get_theorem" arguments s = (row.json.text, s)
  | none => readTheorem name s = .error (.refused 404 "Theorem not found") ∧
      ∀ clock arguments, arguments.lookup "name" = some name →
        Tool.call clock "get_theorem" arguments s = ("Theorem '" ++ name ++ "' not found", s)

@[inherit_doc ShowsTheorem]
def ShowsDefinition (s : Store) (name : String) : Option (String × NewDefinition) → Prop
  | some added => ∃ row, DefinitionAt added row ∧ readDefinition name s = .ok row ∧
      ∀ clock arguments, arguments.lookup "name" = some name →
        Tool.call clock "get_definition" arguments s = (row.json.text, s)
  | none => readDefinition name s = .error (.refused 404 "Definition not found") ∧
      ∀ clock arguments, arguments.lookup "name" = some name →
        Tool.call clock "get_definition" arguments s = ("Definition '" ++ name ++ "' not found", s)

section Names
variable {s : Store} {name clock : String} {arguments : Tool.Arguments}

theorem call_getTheorem {found : Option TheoremRow} (harg : arguments.lookup "name" = some name)
    (hread : s.theorem? (some name) = .ok found) : Tool.call clock "get_theorem" arguments s =
      ((found.map fun row => row.json.text).getD ("Theorem '" ++ name ++ "' not found"), s) := by
  have htool : Tool.ofName? "get_theorem" = some .getTheorem := rfl
  simp only [Tool.call, htool, Tool.run, Tool.argument, harg, bind, Except.bind, hread, Except.mapError]
  cases found <;> rfl

theorem call_getDefinition {found : Option DefinitionRow} (harg : arguments.lookup "name" = some name)
    (hread : s.definition? (some name) = .ok found) : Tool.call clock "get_definition" arguments s =
      ((found.map fun row => row.json.text).getD ("Definition '" ++ name ++ "' not found"), s) := by
  have htool : Tool.ofName? "get_definition" = some .getDefinition := rfl
  simp only [Tool.call, htool, Tool.run, Tool.argument, harg, bind, Except.bind, hread, Except.mapError]
  cases found <;> rfl

theorem showsTheorem_of_rel {found : Option TheoremRow} {added : Option (String × NewTheorem)}
    (hread : s.theorem? (some name) = .ok found) (h : Option.Rel TheoremAt added found) :
    ShowsTheorem s name added := by
  cases h with
  | none => exact ⟨by simp only [readTheorem, hread]; rfl, fun _ _ harg => call_getTheorem harg hread⟩
  | some holds => exact ⟨_, holds, by simp only [readTheorem, hread]; rfl, fun _ _ harg => call_getTheorem harg hread⟩

theorem showsDefinition_of_rel {found : Option DefinitionRow} {added : Option (String × NewDefinition)}
    (hread : s.definition? (some name) = .ok found) (h : Option.Rel DefinitionAt added found) :
    ShowsDefinition s name added := by
  cases h with
  | none => exact ⟨by simp only [readDefinition, hread]; rfl, fun _ _ harg => call_getDefinition harg hread⟩
  | some holds =>
    exact ⟨_, holds, by simp only [readDefinition, hread]; rfl, fun _ _ harg => call_getDefinition harg hread⟩

end Names

/-! ### Both front ends on one store -/

theorem not_error_of_reported {name text : String} {arguments : Tool.Arguments} {table : Table}
    (h : reported (.tool name arguments) (.text text) = some table) : ¬"Error:".toList <+: text.toList := by
  rintro ⟨rest, hrest⟩
  have hhead : text.toList.head? = some 'E' := by
    rw [← hrest]
    rfl
  rw [reported_eq_none (by rw [hhead]; decide)] at h
  cases h

/-- What a step adds to the two tables, and that it leaves all else as it was. -/
theorem Step.more {clock : String} {s next : Store} {r : Request} {reply : Reply} {theorems : List TheoremRow}
    {definitions : List DefinitionRow} (h : Step clock s r reply next) (hts : s.theorems = some theorems)
    (hds : s.definitions = some definitions) :
    ∃ moreTheorems moreDefinitions,
      next = { s with
        theorems := some (theorems ++ moreTheorems), definitions := some (definitions ++ moreDefinitions) } ∧
      moreTheorems.length = (if reported r reply = some .theorems then 1 else 0) ∧
      moreDefinitions.length = (if reported r reply = some .definitions then 1 else 0) := by
  cases h with
  | same silent => exact ⟨[], [], by simp [← hts, ← hds], by simp [silent], by simp [silent]⟩
  | @theoremAdded _ _ row asked there allowed said =>
    cases hts.symm.trans there
    exact ⟨[row], [], by simp [← hds], by simp [said], by simp [said]⟩
  | @definitionAdded _ _ row asked there allowed said =>
    cases hds.symm.trans there
    exact ⟨[], [row], by simp [← hts], by simp [said], by simp [said]⟩

theorem Step.eq_of_error {clock name text : String} {s next : Store} {arguments : Tool.Arguments}
    (h : Step clock s (.tool name arguments) (.text text) next) (herror : "Error:".toList <+: text.toList) :
    next = s := by
  cases h with
  | same silent => rfl
  | theoremAdded asked there allowed said => exact absurd herror (not_error_of_reported said)
  | definitionAdded asked there allowed said => exact absurd herror (not_error_of_reported said)

/-- After any requests to both front ends, in a store whose theorems and definitions they have added, the next request
    adds a row to a table exactly if its reply reports it, and otherwise changes nothing at all; no row is ever changed
    or removed. A tool always replies with one text, and with the store as it was if the text is that of an error.
    Every name shows what was first added under it. -/
theorem front_ends_append_only (start : Store) (htheorems : start.theorems = some [])
    (hdefinitions : start.definitions = some []) (history : List (String × Request)) :
    ∃ theorems definitions, (after start history).theorems = some theorems ∧
      (after start history).definitions = some definitions ∧
      (∀ clock r reply next, r.perform clock (after start history) = (reply, next) →
        (∃ moreTheorems moreDefinitions,
          next = { after start history with
            theorems := some (theorems ++ moreTheorems), definitions := some (definitions ++ moreDefinitions) } ∧
          moreTheorems.length = (if reported r reply = some .theorems then 1 else 0) ∧
          moreDefinitions.length = (if reported r reply = some .definitions then 1 else 0)) ∧
        ∀ name arguments, r = .tool name arguments →
          ∃ text, reply = .text text ∧ ("Error:".toList <+: text.toList → next = after start history)) ∧
      (∀ name, ShowsTheorem (after start history) name
        ((additions .theorems Request.theorem? start history).find? fun a => a.2.name == some name)) ∧
      ∀ name, ShowsDefinition (after start history) name
        ((additions .definitions Request.definition? start history).find? fun a => a.2.name == some name) := by
  obtain ⟨theorems, hts, hadded⟩ := theorems_grow.after history htheorems
  obtain ⟨definitions, hds, hdefined⟩ := definitions_grow.after history hdefinitions
  rw [List.nil_append] at hts hds
  refine ⟨theorems, definitions, hts, hds, ?_, fun name => ?_, fun name => ?_⟩
  · intro clock r reply next hresult
    have hstep := perform_step clock (after start history) r
    rw [hresult] at hstep
    refine ⟨hstep.more hts hds, ?_⟩
    rintro name arguments rfl
    obtain ⟨text, rfl⟩ : ∃ text, reply = .text text := ⟨_, (congrArg Prod.fst hresult).symm⟩
    exact ⟨text, rfl, hstep.eq_of_error⟩
  · refine showsTheorem_of_rel ?_ (find?_of_forall₂ (fun _ _ holds => holds.1.name) hadded name)
    simp only [theorem?, hts]
    rfl
  · refine showsDefinition_of_rel ?_ (find?_of_forall₂ (fun _ _ holds => holds.1.name) hdefined name)
    simp only [definition?, hds]
    rfl

/-- A tool that comes second to a name adds nothing; the name shows what the web front end added, and a definition is
    shown beside it. -/
theorem front_ends_append_only_second_writer :
    let first : NewTheorem := { name := some "a", head := some "p", proof := some "", raw := some "p" }
    let definition : NewDefinition := { name := some "d", definition := some "x" }
    let history : List (String × Request) :=
      [("1", .tool "add_theorem" [("name", "a"), ("theorem_head", "n")]), ("2", .createTheorem "a" "p" "" "p"),
       ("3", .createDefinition "d" "x")]
    let second : Request := .tool "add_theorem" [("name", "a"), ("theorem_head", "q"), ("proof", ""), ("raw", "q")]
    withStatements.theorems = some [] ∧ withStatements.definitions = some [] ∧
      after withStatements (history ++ [("4", second)]) = after withStatements history ∧
      ShowsTheorem (after withStatements history) "a" (some ("2", first)) ∧
      ShowsTheorem (after withStatements history) "b" none ∧
      ShowsDefinition (after withStatements history) "d" (some ("3", definition)) := by
  intro first definition history second
  obtain ⟨_, _, -, -, hsteps, htheorem, hdefinition⟩ := front_ends_append_only withStatements rfl rfl history
  refine ⟨rfl, rfl, ?_, ?_, ?_, ?_⟩
  · obtain ⟨text, htext, herror⟩ := (hsteps "4" second _ _ rfl).2 _ _ rfl
    cases htext
    exact (List.foldl_append ..).trans (herror (by decide))
  · have hfirst : (additions .theorems Request.theorem? withStatements history).find? (·.2.name == some "a") =
        some ("2", first) := by rfl
    exact hfirst ▸ htheorem "a"
  · have hnone : (additions .theorems Request.theorem? withStatements history).find? (·.2.name == some "b") = none := by
      rfl
    exact hnone ▸ htheorem "b"
  · have hfirst : (additions .definitions Request.definition? withStatements history).find? (·.2.name == some "d") =
        some ("3", definition) := by rfl
    exact hfirst ▸ hdefinition "d"

end AcornCatalog.FrontEnd
