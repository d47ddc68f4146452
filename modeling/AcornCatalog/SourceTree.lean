import AcornCatalog.SourceFile

/-! Trees of source files. The files below a folder are read in the order of their path components. -/

namespace AcornCatalog

/-- Files with their contents. Of two files of one path the later one holds. -/
structure SourceTree where
  files : List (SourcePath × List UInt8) := []
  deriving DecidableEq, Repr

namespace SourceTree

/-- Writes a file. -/
def write (path : SourcePath) (bytes : List UInt8) (t : SourceTree) : SourceTree :=
  ⟨t.files.filter (fun f => f.1 != path) ++ [(path, bytes)]⟩

/-- The contents of a file. -/
def read? (path : SourcePath) (t : SourceTree) : Option (List UInt8) := t.files.lookup path

/-- Whether `p` stands below the folder `root`. -/
def isBelow (root p : SourcePath) : Bool :=
  p.slashes == root.slashes && root.parts.isPrefixOf p.parts && root.parts.length < p.parts.length

/-- A path and all folders it lies in, the outermost first. -/
def withFolders (p : SourcePath) : List SourcePath :=
  (List.range p.parts.length).map fun n => { p with parts := p.parts.take (n + 1) }

/-- Whether there is a file or folder of that path. -/
def contains (path : SourcePath) (t : SourceTree) : Bool := t.files.any fun f => (withFolders f.1).contains path

/-- Whether a path is named like a source file. -/
def isSource (p : SourcePath) : Bool := ".ac".toList.isSuffixOf p.name.toList

/-- Whether a list of components comes no later than another: the first difference decides, and a list comes before its
    continuations. -/
def noLater : List String → List String → Bool
  | [], _ => true
  | _ :: _, [] => false
  | a :: as, b :: bs => decide (a < b) || (a == b && noLater as bs)

/-- The paths below `root` that are named like source files, in the order of their components. A folder so named is
    among them. -/
def sources (root : SourcePath) (t : SourceTree) : List SourcePath :=
  (((t.files.flatMap fun f => withFolders f.1).filter fun p => isBelow root p && isSource p).eraseDups).mergeSort
    fun a b => noLater a.parts b.parts

/-- Reads a path as a source file, or says why that fails. -/
def readSource (path : SourcePath) (t : SourceTree) : Except String SourceFile :=
  match t.read? path with
  | none => .error ("[Errno 21] Is a directory: " ++ Text.quoted path.text)
  | some bytes => (SourceFile.ofBytes path bytes).mapError Utf8.Malformed.message

end SourceTree

end AcornCatalog
