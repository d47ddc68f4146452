import AcornCatalog.Json
import AcornCatalog.OrderedMap

/-! Items in the order of their dependencies. Each name is counted the dependencies that it waits for, and those that
wait for none stand in a queue. The least name in the queue is next; it is counted off for every name that depends on
it. So the order does not hang on how the input is arranged; names that wait for a cycle never come into the queue, and
come last, in the order of the alphabet. -/

namespace AcornCatalog.Dependency

/-- The item named `source` depends on the one named `target`. -/
structure Edge where
  source : String
  target : String
  deriving DecidableEq, Repr

/-- The edges between two of the given names. -/
def keptEdges (names : List String) (edges : List Edge) : List Edge :=
  edges.filter fun e => names.contains e.source && names.contains e.target

/-! ### Counting dependencies -/

/-- Dependencies as they are counted: the names that depend on a name, one for each edge, and how many edges a name waits
    for. -/
structure Graph where
  dependents : OrderedMap (List String)
  waits : OrderedMap Int
  deriving DecidableEq, Repr

namespace Graph

/-- Names that wait for nothing. -/
def ofNames (names : List String) : Graph := ⟨.ofEntries (names.map (·, [])), .ofEntries (names.map (·, 0))⟩

/-- Counts an edge. -/
def link (g : Graph) (e : Edge) : Graph :=
  { dependents := g.dependents.insert e.target ((g.dependents.get? e.target).getD [] ++ [e.source])
    waits := g.waits.insert e.source ((g.waits.get? e.source).getD 0 + 1) }

/-- Counts the edges between names. -/
def ofEdges (names : List String) (edges : List Edge) : Graph := (keptEdges names edges).foldl link (ofNames names)

end Graph

/-! ### Taking names from the queue -/

/-- Where the ordering of names stands: how many edges each name still waits for, the names that are next, and those that
    have come. -/
structure Progress where
  waits : OrderedMap Int
  queue : List String
  done : List String
  deriving DecidableEq, Repr

namespace Progress

/-- Counts off one edge that a name waits for. If it was the last one, the name comes into the queue. -/
def countOff (p : Progress) (name : String) : Progress :=
  match p.waits.get? name with
  | none => p
  | some n =>
    { p with
      waits := p.waits.insert name (n - 1)
      queue := if n - 1 = 0 then p.queue ++ [name] else p.queue }

/-- The names that can still be taken are no more than these: those in the queue, and those that wait. -/
def ahead (p : Progress) : Nat := p.queue.length + p.waits.countP (0 < ·.2)

theorem ahead_countOff (p : Progress) (name : String) : (p.countOff name).ahead = p.ahead := by
  rw [countOff]
  split
  · rfl
  · next n hn =>
    have hcount := OrderedMap.countP_insert (fun w : Int => decide (0 < w)) hn (n - 1)
    simp only [ahead, decide_eq_true_eq] at hcount ⊢
    by_cases hlast : n - 1 = 0
    · rw [if_pos hlast, List.length_append, List.length_singleton]
      rw [if_pos (by omega), if_neg (by omega)] at hcount
      omega
    · rw [if_neg hlast]
      by_cases hpos : 0 < n
      · rw [if_pos hpos, if_pos (by omega)] at hcount
        omega
      · rw [if_neg hpos, if_neg (by omega)] at hcount
        omega

theorem ahead_foldl_countOff (names : List String) (p : Progress) : (names.foldl countOff p).ahead = p.ahead := by
  induction names generalizing p with
  | nil => rfl
  | cons name names ih => rw [List.foldl_cons, ih, ahead_countOff]

/-- Sorts the queue, the least name first. -/
def sort (p : Progress) : Progress := { p with queue := p.queue.mergeSort fun a b => decide (a ≤ b) }

/-- At first the names that wait for nothing are in the queue. -/
def start (waits : OrderedMap Int) : Progress := sort ⟨waits, (waits.filter (·.2 == 0)).map (·.1), []⟩

theorem ahead_sort (p : Progress) : p.sort.ahead = p.ahead := by rw [ahead, sort, List.length_mergeSort, ahead]

/-- Takes the first name from the queue, counts it off for all that depend on it and sorts the queue again, until the
    queue is empty. -/
def run (dependents : OrderedMap (List String)) : Progress → List String
  | ⟨_, [], done⟩ => done
  | ⟨waits, name :: queue, done⟩ =>
    run dependents (((dependents.get? name).getD []).foldl countOff ⟨waits, queue, done ++ [name]⟩).sort
termination_by p => p.ahead
decreasing_by
  rw [ahead_sort, ahead_foldl_countOff]
  exact Nat.add_lt_add_right (Nat.lt_succ_self queue.length) _

end Progress

/-- The names that can be put in order, each behind all that it depends on. -/
def settledNames (names : List String) (edges : List Edge) : List String :=
  let graph := Graph.ofEdges names edges
  (Progress.start graph.waits).run graph.dependents

/-- Puts items in the order of their dependencies. Of several items with one name that can be ordered the last stands
    for all; the items left over come last, all of them, by name. -/
def order {α : Type} (name : α → String) (items : List α) (edges : List Edge) : List α :=
  let named := OrderedMap.ofEntries (items.map fun i => (name i, i))
  let settled := settledNames (items.map name) edges
  settled.filterMap (fun n => named.get? n) ++
    (items.filter fun i => !settled.contains (name i)).mergeSort fun a b => decide (name a ≤ name b)

/-- A record lacks a field that it must have. -/
structure MissingField where
  field : String
  deriving DecidableEq, Repr

/-- The wording of a missing field. -/
def MissingField.message (m : MissingField) : String := s!"'{m.field}'"

/-- The text in a field of a record. -/
def textField (key : String) (record : Json) : Except MissingField String :=
  match (record.field? key).bind Json.text? with
  | some s => .ok s
  | none => .error ⟨key⟩

/-- Puts records in the order of their dependencies, which are records too. -/
def orderRecords (items dependencies : List Json) : Except MissingField (List Json) := do
  let named ← items.mapM fun i => do return (← textField "name" i, i)
  let edges ← dependencies.mapM fun d => do
    return Edge.mk (← textField "source_name" d) (← textField "target_name" d)
  return (order (·.1) named edges).map (·.2)

end AcornCatalog.Dependency
