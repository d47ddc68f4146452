/-! Maps from names that remember the order in which the names first came. -/

namespace AcornCatalog

/-- Entries in the order in which their names first came; each name has one entry. -/
abbrev OrderedMap (α : Type) := List (String × α)

namespace OrderedMap

variable {α : Type}

/-- Gives a name a value. A name that is there keeps its place and takes the new value. -/
def insert (key : String) (value : α) : OrderedMap α → OrderedMap α
  | [] => [(key, value)]
  | (k, v) :: rest => if k = key then (k, value) :: rest else (k, v) :: insert key value rest

/-- The value of a name. -/
def get? (key : String) : OrderedMap α → Option α
  | [] => none
  | (k, v) :: rest => if k = key then some v else get? key rest

/-- Gives values to names one after the other. -/
def insertAll (entries : List (String × α)) (m : OrderedMap α) : OrderedMap α :=
  entries.foldl (fun m e => m.insert e.1 e.2) m

/-- The map that a list of entries describes; of two values for a name the later one holds. -/
def ofEntries (entries : List (String × α)) : OrderedMap α := insertAll entries []

/-- Giving a name another value changes how many values pass a test by no more than the two values do. -/
theorem countP_insert {m : OrderedMap α} {key : String} {old : α} (test : α → Bool)
    (h : m.get? key = some old) (new : α) :
    (m.insert key new).countP (test ·.2) + (if test old then 1 else 0) =
      m.countP (test ·.2) + (if test new then 1 else 0) := by
  induction m with
  | nil => cases h
  | cons e m ih =>
    obtain ⟨k, v⟩ := e
    rw [get?] at h
    rw [insert]
    split at h
    · next hk =>
      cases h
      rw [if_pos hk]
      simp only [List.countP_cons]
      omega
    · next hk =>
      have := ih h
      rw [if_neg hk, List.countP_cons, List.countP_cons]
      omega

end OrderedMap

end AcornCatalog
