import AcornCatalog.Check.Bracket
import AcornCatalog.Check.Comment
import AcornCatalog.Check.LineRule
import AcornCatalog.Json

/-! The report on a text: comments are masked, then brackets are followed through all lines and each line that lies over
one of the text is held to the rules. -/

namespace AcornCatalog.Check

open Text

/-- The mistakes in a text, and what merely looks odd. -/
structure Report where
  errors : List Finding
  warnings : List Finding
  deriving DecidableEq, Repr

/-- A text without mistakes is valid, however odd. -/
def Report.isValid (r : Report) : Bool := r.errors.isEmpty

/-- What a rule finds in each of some lines. -/
def byLine (rule : Line → List Problem) (ls : List Line) : List Finding :=
  (ls.zipIdx 1).flatMap fun (line, number) => (rule line).map fun p => ⟨number, p⟩

/-- The masked lines that lie over a line of the text. -/
def coveringLines (source : List Char) : List Line := ((lines (maskComments source)).zip (lines source)).map (·.1)

/-- Reports on a text. An open comment comes first, then brackets, then what each line has wrong. -/
def report (source : String) : Report :=
  let cs := source.toList
  let ls := lines (maskComments cs)
  { errors :=
      (if endsInComment cs then [⟨ls.length, .openComment⟩] else []) ++ checkBrackets ls ++
        byLine lineErrors (coveringLines cs)
    warnings := byLine lineWarnings (coveringLines cs) }

/-- A finding as a record. -/
def Finding.json (f : Finding) : Json := .obj [("line", .int f.line), ("message", .str f.problem.message)]

/-- A report as a record. -/
def Report.json (r : Report) : Json :=
  .obj [("is_valid", .bool r.isValid), ("errors", .arr (r.errors.map Finding.json)),
        ("warnings", .arr (r.warnings.map Finding.json))]

end AcornCatalog.Check
