import AcornCatalog.Check.Finding
import AcornCatalog.Text.Line

/-! Brackets of three kinds. The closing ones that are still due form a stack; a closing bracket takes the top of it,
whether it fits or not. -/

namespace AcornCatalog.Check

open Text

/-- The bracket that closes what `c` opens. -/
def closerOf? (c : Char) : Option Char :=
  if c = '(' then some ')' else if c = '{' then some '}' else if c = '[' then some ']' else none

/-- Whether a character closes a bracket. -/
def isCloser (c : Char) : Bool := c == ')' || c == '}' || c == ']'

/-- A closing bracket that is due, and the line where its opening one stands. -/
structure Due where
  closer : Char
  line : Nat
  deriving DecidableEq, Repr

/-- Follows characters with their line numbers, the closing brackets in `stack` being due. What is due at the end is
    reported innermost first. -/
def bracketFindings : List Due → List (Nat × Char) → List Finding
  | stack, [] => stack.map fun due => ⟨due.line, .unclosedBracket due.closer⟩
  | stack, (line, c) :: rest =>
    match closerOf? c with
    | some closer => bracketFindings (⟨closer, line⟩ :: stack) rest
    | none =>
      if isCloser c then
        match stack with
        | [] => ⟨line, .unmatchedClosing c⟩ :: bracketFindings [] rest
        | due :: stack =>
          if c = due.closer then bracketFindings stack rest
          else ⟨line, .mismatchedBracket due.closer due.line c⟩ :: bracketFindings stack rest
      else bracketFindings stack rest

/-- The characters of lines, each with the number of its line. -/
def numberedChars (ls : List Line) : List (Nat × Char) :=
  (ls.zipIdx 1).flatMap fun (line, number) => line.map fun c => (number, c)

/-- What is wrong with the brackets in some lines. -/
def checkBrackets (ls : List Line) : List Finding := bracketFindings [] (numberedChars ls)

end AcornCatalog.Check
