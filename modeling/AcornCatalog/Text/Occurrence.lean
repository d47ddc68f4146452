import AcornCatalog.Text.Reader

/-! Occurrences of a shape in a text: leftmost first and without overlap. A reader is tried at every character; where it
succeeds, the search goes on behind what it took. -/

namespace AcornCatalog.Text

/-- A reader that may also look at the character in front of it. -/
abbrev Probe (α : Type) := Option Char → Reader α

/-- What a probe found, and the column where it starts. -/
structure Occurrence (α : Type) where
  column : Nat
  value : α
  deriving DecidableEq, Repr

/-- The occurrences in the text that follows `before`, whose first character has number `column`. The first `covered`
    characters belong to an occurrence already found. -/
def occurrencesFrom {α : Type} (probe : Probe α) :
    Option Char → Nat → Nat → List Char → List (Occurrence α)
  | _, _, _, [] => []
  | _, column, covered + 1, c :: cs => occurrencesFrom probe (some c) (column + 1) covered cs
  | before, column, 0, c :: cs =>
    match probe before (c :: cs) with
    | some (a, rest) => ⟨column, a⟩ :: occurrencesFrom probe (some c) (column + 1) (cs.length - rest.length) cs
    | none => occurrencesFrom probe (some c) (column + 1) 0 cs

/-- The occurrences of `probe` in a text. -/
def occurrences {α : Type} (probe : Probe α) (cs : List Char) : List (Occurrence α) :=
  occurrencesFrom probe none 0 0 cs

/-- What the occurrences of `probe` hold, without their columns. -/
def found {α : Type} (probe : Probe α) (cs : List Char) : List α := (occurrences probe cs).map (·.value)

/-- The leftmost place where `r` succeeds. -/
def first? {α : Type} (r : Reader α) (cs : List Char) : Option (Occurrence α) := (occurrences (fun _ => r) cs).head?

/-- Tries `r` wherever it is, whatever stands in front. -/
def anywhere {α : Type} (r : Reader α) : Probe α := fun _ => r

/-- Tries `r` only where no word character stands in front. -/
def atWordStart {α : Type} (r : Reader α) : Probe α := fun before =>
  if before.any isWordChar then failure else r

end AcornCatalog.Text
