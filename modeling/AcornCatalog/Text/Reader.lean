import AcornCatalog.Text.Blank
import AcornCatalog.Text.Word

/-! Readers: what takes a known shape off the front of a text. Each refuses by `none` and leaves the rest otherwise;
there is no way back into what has been taken. -/

namespace AcornCatalog.Text

/-- Takes what it recognises off the front of a text, or refuses. -/
abbrev Reader := StateT (List Char) Option

/-- What is left of a text after `lead`, if it starts so. -/
def dropLead? : List Char → List Char → Option (List Char)
  | [], cs => some cs
  | _ :: _, [] => none
  | p :: ps, c :: cs => if p = c then dropLead? ps cs else none

namespace Reader

/-- The longest run of characters in `p`, possibly empty. -/
def span (p : Char → Bool) : Reader (List Char) := fun cs => some (cs.takeWhile p, cs.dropWhile p)

/-- One character in `p`. -/
def one (p : Char → Bool) : Reader Char
  | [] => none
  | c :: cs => if p c then some (c, cs) else none

/-- The longest run of characters in `p`, which must not be empty. -/
def span1 (p : Char → Bool) : Reader (List Char) := do
  let c ← one p
  let cs ← span p
  return c :: cs

/-- A character in `first` and the longest run in `next` after it. -/
def word (first next : Char → Bool) : Reader (List Char) := do
  let c ← one first
  let cs ← span next
  return c :: cs

/-- A word in lower case: the name of a variable or function, or a part of one. -/
def lowerWord : Reader (List Char) := word isLowerStart isLowerChar

/-- Exactly the text `s`. -/
def literal (s : String) : Reader Unit := fun cs => (dropLead? s.toList cs).map ((), ·)

/-- The blanks in front, if any. -/
def blanks : Reader Unit := do
  let _ ← span isBlank

/-- At least one blank. -/
def someBlanks : Reader Unit := do
  let _ ← span1 isBlank

/-- The text up to `close`, which must follow and is taken too. -/
def upTo (close : Char) : Reader (List Char) := do
  let inner ← span (· != close)
  let _ ← one (· == close)
  return inner

/-- The text between `opening` and the next `closing`. -/
def between (opening closing : Char) : Reader (List Char) := do
  let _ ← one (· == opening)
  upTo closing

/-- Takes nothing, and refuses where a word goes on. -/
def wordEnd : Reader Unit := fun cs =>
  match cs with
  | [] => some ((), [])
  | c :: rest => if isWordChar c then none else some ((), c :: rest)

/-- What `r` reads, or nothing where it refuses. -/
def maybe {α : Type} (r : Reader α) : Reader (Option α) := fun cs =>
  match r cs with
  | some (a, rest) => some (some a, rest)
  | none => some (none, cs)

/-- Takes nothing, and refuses unless the text is used up. -/
def textEnd : Reader Unit := fun cs => if cs.isEmpty then some ((), cs) else none

/-- What `r` reads again and again, at most `n` times, until it refuses. -/
def manyUpTo {α : Type} (r : Reader α) : Nat → Reader (List α)
  | 0, cs => some ([], cs)
  | n + 1, cs =>
    match r cs with
    | some (a, rest) => (manyUpTo r n rest).map fun (as, rest) => (a :: as, rest)
    | none => some ([], cs)

/-- What `r` reads again and again until it refuses. A reader that always takes something is never cut short. -/
def many {α : Type} (r : Reader α) : Reader (List α) := fun cs => manyUpTo r cs.length cs

/-- What `r` reads, or what `s` reads in its place where `r` refuses. -/
def orElse {α : Type} (r s : Reader α) : Reader α := fun cs => (r cs).or (s cs)

/-- Takes nothing, and refuses unless a character in `p` comes next. -/
def followedBy (p : Char → Bool) : Reader Unit := fun cs => if cs.head?.any p then some ((), cs) else none

/-- What `r` reads at the front of a text, whatever follows. -/
def read? {α : Type} (r : Reader α) (cs : List Char) : Option α := (r cs).map (·.1)

/-- The text that `r` takes off the front of a text. -/
def taken? {α : Type} (r : Reader α) (cs : List Char) : Option (List Char) :=
  (r cs).map fun (_, rest) => cs.take (cs.length - rest.length)

end Reader

end AcornCatalog.Text
