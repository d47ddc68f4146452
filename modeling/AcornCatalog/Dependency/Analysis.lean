import AcornCatalog.Declaration.Basic
import AcornCatalog.Dependency.Inference

/-! What a declaration depends on. -/

namespace AcornCatalog

open Dependency

/-- The names that a declaration depends on. A statement is read by its head and proof, a definition by its source and
    signature; a class depends on its parents too, and nothing named depends on itself. -/
def Declaration.dependencyNames : Declaration → List String
  | .statement d => withoutSelf d.name (dependencies (d.head ++ "\n" ++ d.proof) d.head)
  | .definition d => withoutSelf d.name (dependencies d.source d.signature)
  | .typeClass d => (Text.sortedDistinct (dependencies d.source "" ++ d.parents)).filter (· != d.name)
  | d => dependencies d.item.source ""

end AcornCatalog
