import AcornCatalog.Text.Line

/-! Blocks in braces. A block is found by counting braces from just behind the opening one, whatever stands between, and
its text is moved left as far as its least indented line allows. -/

namespace AcornCatalog

open Text

/-- How a line goes on from inside a block: it closes the block at a column, or ends with `depth` inner blocks open. -/
inductive LineEnd where
  | closes (column : Nat)
  | inside (depth : Nat)
  deriving DecidableEq, Repr

/-- The same, for a line with one character more in front. -/
def LineEnd.shift : LineEnd → LineEnd
  | .closes column => .closes (column + 1)
  | .inside depth => .inside depth

/-- Follows a line from inside a block with `depth` inner blocks open. -/
def lineEnd : Nat → Line → LineEnd
  | depth, [] => .inside depth
  | depth, c :: cs =>
    if c = '{' then (lineEnd (depth + 1) cs).shift
    else if c = '}' then
      match depth with
      | 0 => .closes 0
      | depth + 1 => (lineEnd depth cs).shift
    else (lineEnd depth cs).shift

/-- A block found in a list of lines: its text line by line, how many lines below the first it closes, and the column
    behind its closing brace. -/
structure Block where
  inner : List Line
  height : Nat
  column : Nat
  deriving DecidableEq, Repr

/-- The block that the lines go on in, with `depth` inner blocks open; nothing if it never closes. -/
def Block.closeIn : Nat → List Line → Option Block
  | _, [] => none
  | depth, line :: rest =>
    match lineEnd depth line with
    | .closes column => some ⟨[line.take column], 0, column + 1⟩
    | .inside depth => (Block.closeIn depth rest).map fun b => ⟨line :: b.inner, b.height + 1, b.column⟩

/-- The block whose opening brace stands just before `column` of the first line. -/
def Block.capture (ls : List Line) (column : Nat) : Option Block :=
  match ls with
  | [] => none
  | line :: rest =>
    (Block.closeIn 0 (line.drop column :: rest)).map fun b =>
      if b.height = 0 then { b with column := column + b.column } else b

/-- How many blanks a line begins with. -/
def indentation (line : Line) : Nat := (line.takeWhile isBlank).length

/-- Moves all lines left by the indentation of the least indented one. Blank lines neither count nor move. -/
def dedent (text : List Char) : List Char :=
  let ls := cut '\n' text
  match ((ls.filter fun l => !allBlank l).map indentation).min? with
  | none => text
  | some n => joinLines (ls.map fun l => if allBlank l then l else l.drop n)

/-- The text of a block, moved left. -/
def Block.content (b : Block) : List Char := dedent (joinLines b.inner)

/-- How many more braces a line opens than it closes. -/
def braceBalance (line : Line) : Int := (line.count '{' : Int) - (line.count '}' : Int)

/-- How many of the lines that follow belong to a text that has `balance` braces open. -/
def openLines : Int → List Line → Nat
  | _, [] => 0
  | balance, line :: rest => if balance > 0 then openLines (balance + braceBalance line) rest + 1 else 0

/-- Goes through lines front to back. At each line that no earlier step has used, `step` is given the line's number, the
    line and those below, and says what it found and how many of those below it used. -/
def sweep {α : Type} (step : Nat → Line → List Line → List α × Nat) : Nat → Nat → List Line → List α
  | _, _, [] => []
  | number, used + 1, _ :: rest => sweep step (number + 1) used rest
  | number, 0, line :: rest =>
    let (found, used) := step number line rest
    found ++ sweep step (number + 1) used rest

end AcornCatalog
