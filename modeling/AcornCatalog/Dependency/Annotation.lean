import AcornCatalog.OrderedMap
import AcornCatalog.Text.Line
import AcornCatalog.Text.Occurrence

/-! Type annotations: the variables that a signature or a quantifier gives types to. -/

namespace AcornCatalog.Dependency

open Text Reader

/-- Characters of a type before the comma, parenthesis or bracket that ends it. -/
def isTypeChar (c : Char) : Bool := isNameChar c || c == '<' || c == '>' || c == '[' || isBlank c

/-- A variable, a colon, and a type up to a comma or a closing mark, which is left in place. -/
def annotation : Reader (List Char × List Char) := do
  let name ← lowerWord
  blanks
  literal ":"
  blanks
  let type ← word Char.isUpper isTypeChar
  followedBy fun c => c == ',' || c == ')' || c == ']'
  return (name, type)

/-- The variables of a signature with their types, from which blanks are removed. -/
def annotations (signature : String) : OrderedMap String :=
  .ofEntries ((found (anywhere annotation) signature.toList).map fun (name, type) =>
    (String.ofList name, String.ofList (type.filter (!isBlank ·))))

/-- A quantifier and the text in its parentheses. -/
def quantifier : Reader (List Char) := do
  orElse (literal "forall") (literal "exists")
  blanks
  between '(' ')'

/-- One variable of a quantifier: a name and a type with exactly one colon between them. -/
def quantifiedVariable? (piece : List Char) : Option (String × String) :=
  match cut ':' piece with
  | [name, type] => some (String.ofList (trim name), String.ofList (trim type))
  | _ => none

/-- The variables of all quantifiers in a text with their types. -/
def quantified (text : String) : OrderedMap String :=
  .ofEntries ((found (anywhere quantifier) text.toList).flatMap fun inner =>
    (cut ',' inner).filterMap quantifiedVariable?)

end AcornCatalog.Dependency
