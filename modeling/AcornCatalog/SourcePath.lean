import AcornCatalog.Text.Line
import AcornCatalog.Text.Quoted

/-! Paths of source files. A path is kept by its components, so that two spellings of one path are equal; going up by
`..` is a component like any other. -/

namespace AcornCatalog

/-- A path: how many slashes mark it as absolute, and its components. -/
structure SourcePath where
  slashes : Nat
  parts : List String
  deriving DecidableEq, Repr

/-- Why a module name cannot be read off a path. -/
inductive PathFault where
  | outside (path root : SourcePath)
  | noName
  deriving DecidableEq, Repr

namespace SourcePath

open Text

/-- Reads a path. Empty components and `.` are dropped; exactly two slashes in front are kept apart from one. -/
def ofString (s : String) : SourcePath :=
  let lead := (s.toList.takeWhile (· == '/')).length
  { slashes := if lead = 0 then 0 else if lead = 2 then 2 else 1
    parts := ((cut '/' s.toList).map String.ofList).filter fun p => p != "" && p != "." }

/-- The components behind the slashes, nothing at all for the path to where one stands. -/
def plain (p : SourcePath) : String :=
  String.ofList (List.replicate p.slashes '/') ++ "/".intercalate p.parts

/-- Writes a path; the path to where one stands is `.`. -/
def text (p : SourcePath) : String := if p.plain = "" then "." else p.plain

/-- The last component, or nothing. -/
def name (p : SourcePath) : String := p.parts.getLastD ""

/-- The folder where one stands. -/
def here : SourcePath := ⟨0, []⟩

/-- The path of what stands in the folder `p`, by its components from there. -/
def inside (p : SourcePath) (inner : List String) : SourcePath := { p with parts := p.parts ++ inner }

/-- A file name without its extension. The last dot counts unless it is the first or the last character. -/
def withoutExtension (name : String) : String :=
  let after := name.toList.reverse.takeWhile (· != '.')
  let before := name.toList.take (name.length - after.length - 1)
  if after.length < name.length && !after.isEmpty && !before.isEmpty then String.ofList before else name

/-- The path that leads from `root` to `p`. -/
def relativeTo (p root : SourcePath) : Except PathFault SourcePath :=
  if root.slashes = p.slashes && root.parts.isPrefixOf p.parts then .ok ⟨0, p.parts.drop root.parts.length⟩
  else .error (.outside p root)

/-- The name of the module in a file: the file's bare name, or its components below `root`, joined by dots. -/
def moduleName (root : Option SourcePath) (p : SourcePath) : Except PathFault String :=
  match root with
  | none => .ok (withoutExtension p.name)
  | some root =>
    match p.relativeTo root with
    | .error fault => .error fault
    | .ok inner =>
      if inner.parts.isEmpty then .error .noName
      else .ok (".".intercalate (inner.parts.dropLast ++ [withoutExtension inner.name]))

end SourcePath

/-- The wording of a path fault. -/
def PathFault.message : PathFault → String
  | .outside path root =>
    Text.quoted path.text ++ " is not in the subpath of " ++ Text.quoted root.plain ++
      " OR one path is relative and the other is absolute."
  | .noName => "PosixPath('.') has an empty name"

end AcornCatalog
