/-! Comments, masked by spaces. A mask keeps every line feed and the place of every other character, so that what is
found in the masked text stands on the same line and column in the text itself. -/

namespace AcornCatalog.Check

/-- What a character belongs to: the program, a comment up to the end of its line, or one that has to be closed. -/
inductive Mode where
  | code
  | lineComment
  | blockComment
  deriving DecidableEq, Repr

/-- Puts a character in front of what was masked. -/
def emit (c : Char) (masked : List Char × Mode) : List Char × Mode := (c :: masked.1, masked.2)

/-- Masks the comments in the text that follows in a mode, and tells the mode at its end. Only a line feed ends a line
    comment; the marks of a comment are masked with it. -/
def mask : Mode → List Char → List Char × Mode
  | mode, [] => ([], mode)
  | .code, '/' :: '/' :: cs => emit ' ' (emit ' ' (mask .lineComment cs))
  | .code, '/' :: '*' :: cs => emit ' ' (emit ' ' (mask .blockComment cs))
  | .code, c :: cs => emit c (mask .code cs)
  | .lineComment, c :: cs => if c = '\n' then emit '\n' (mask .code cs) else emit ' ' (mask .lineComment cs)
  | .blockComment, '*' :: '/' :: cs => emit ' ' (emit ' ' (mask .code cs))
  | .blockComment, c :: cs => emit (if c = '\n' then '\n' else ' ') (mask .blockComment cs)

/-- A text with its comments masked. -/
def maskComments (cs : List Char) : List Char := (mask .code cs).1

/-- Whether a text ends within a comment that had to be closed. -/
def endsInComment (cs : List Char) : Bool := (mask .code cs).2 == .blockComment

end AcornCatalog.Check
