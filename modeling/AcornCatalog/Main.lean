import AcornCatalog.Intake

/-! The command line: takes the source files it is given into an empty store and prints the transcript. With `--dry-run`
nothing is stored, and the declarations are only counted. -/

namespace AcornCatalog

/-- Reads the files named on the command line. -/
def readTree (names : List String) : IO SourceTree :=
  names.foldlM (fun tree (name : String) => return tree.write (.ofString name) (← IO.FS.readBinFile name).toList) {}

end AcornCatalog

/-- Runs the intake and prints what it says; a missing library ends with status one. -/
def main (arguments : List String) : IO UInt32 := do
  let dry := arguments.contains "--dry-run"
  let tree ← AcornCatalog.readTree (arguments.filter (· != "--dry-run"))
  match (AcornCatalog.Intake.runLibrary "" dry tree {}).1 with
  | .error message =>
    (← IO.getStderr).putStrLn message
    return 1
  | .ok transcript =>
    (← IO.getStderr).putStr transcript.err
    (← IO.getStdout).putStr transcript.out
    return 0
