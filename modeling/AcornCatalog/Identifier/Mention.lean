import AcornCatalog.Text.Line
import AcornCatalog.Text.Occurrence
import AcornCatalog.Text.Sorted

/-! Names that a text mentions: qualified names such as `Nat.add`, names of types, and names of variables and functions.
A name is a whole word: no letter or number of any script may touch it. -/

namespace AcornCatalog.Identifier

open Text Reader

/-- A word with a capital in front: a type, a class or a constructor of one. -/
def typeWord : Reader (List Char) := word Char.isUpper isNameChar

/-- A dot and the part of a name behind it, which begins with a character in `first`. -/
def part (first : Char → Bool) : Reader (List Char) := do
  literal "."
  word first isNameChar

/-- Takes nothing where the last of `parts` is a whole word. Where it is not, it is given back; at least one part must
    stay. -/
def wholeParts (parts : List (List Char)) : Reader (List (List Char)) := fun cs =>
  if (wordEnd cs).isSome then
    if parts.isEmpty then none else some (parts, cs)
  else
    match parts.getLast? with
    | none => none
    | some last => if parts.dropLast.isEmpty then none else some (parts.dropLast, '.' :: last ++ cs)

/-- A name written with its parts. -/
def joinParts (owner : List Char) (parts : List (List Char)) : List Char := owner ++ parts.flatMap ('.' :: ·)

/-- A type and a chain of members in lower case: `Nat.add`, `List.map.comp`. -/
def memberChain : Reader (List Char) := do
  let owner ← typeWord
  let parts ← many (part isLowerStart)
  return joinParts owner (← wholeParts parts)

/-- A type with modules in front and any parts behind: `int.Int.add`, `Real.Sequence`. -/
def modulePath : Reader (List Char) := do
  let modules ← many (do
    let w ← lowerWord
    literal "."
    return w ++ ['.'])
  let owner ← typeWord
  let parts ← many (part isNameStart)
  return modules.flatten ++ joinParts owner (← wholeParts parts)

/-- A type and one member in lower case. -/
def member : Reader (List Char) := do
  let owner ← typeWord
  let name ← part isLowerStart
  wordEnd
  return joinParts owner [name]

/-- The name of a type, as a whole word. -/
def typeName : Reader (List Char) := do
  let w ← typeWord
  wordEnd
  return w

/-- The name of a variable or function, as a whole word. -/
def variableName : Reader (List Char) := do
  let w ← lowerWord
  wordEnd
  return w

/-- Words with a capital that name nothing: the truth values and their type. -/
def truthWords : List String := ["Bool", "True", "False"]

/-- The types every module knows, which count as mentioned only in a qualified name. -/
def familiarTypes : List String := truthWords ++ ["Nat", "Int", "Real"]

/-- The keywords of expressions. -/
def keywords : List String :=
  ["if", "else", "then", "let", "define", "match", "by", "forall", "exists", "function", "return", "true", "false",
   "and", "or", "not", "implies"]

/-- All whole words that `r` reads in a text, as strings. -/
def wordsOf (r : Reader (List Char)) (cs : List Char) : List String := (found (atWordStart r) cs).map String.ofList

/-- The qualified and type names in a declaration's source: module paths, types and members of types. -/
def mentioned (source : String) : List String :=
  let cs := source.toList
  sortedDistinct (wordsOf modulePath cs ++ (wordsOf typeName cs).filter (!truthWords.contains ·) ++ wordsOf member cs)

/-- The names that a text refers to, variables and functions among them. -/
def referenced (source : String) : List String :=
  let cs := source.toList
  sortedDistinct (wordsOf memberChain cs ++ (wordsOf typeName cs).filter (!familiarTypes.contains ·) ++
    (wordsOf variableName cs).filter (!keywords.contains ·))

/-- How a name is used: with its type in front, or as a type. -/
inductive Usage where
  | reference
  | type
  deriving DecidableEq, Repr

/-- The label of a usage. -/
def Usage.label : Usage → String
  | .reference => "reference"
  | .type => "type"

/-- A name found in a text: within which scope, on which line (from one) and at which column (from zero). -/
structure Mention where
  name : String
  usage : Usage
  scope : String
  line : Nat
  column : Nat
  deriving DecidableEq, Repr

/-- The mentions that `r` finds in one line. -/
def mentionsBy (r : Reader (List Char)) (usage : Usage) (scope : String) (number : Nat) (line : Line) : List Mention :=
  (occurrences (atWordStart r) line).map fun o => ⟨String.ofList o.value, usage, scope, number, o.column⟩

/-- The mentions in one line: the qualified names first, then the types. -/
def lineMentions (scope : String) (number : Nat) (line : Line) : List Mention :=
  mentionsBy memberChain .reference scope number line ++
    (mentionsBy typeName .type scope number line).filter (!truthWords.contains ·.name)

/-- All mentions in a text, line by line. -/
def mentions (source scope : String) : List Mention :=
  ((cut '\n' source.toList).zipIdx 1).flatMap fun (line, number) => lineMentions scope number line

end AcornCatalog.Identifier
