import AcornCatalog.Check.Finding
import AcornCatalog.Text.Line
import AcornCatalog.Text.Occurrence

/-! Rules on a single line, its comments masked: names of modules, types and functions, types of parameters, binders and
results. -/

namespace AcornCatalog.Check

open Text Reader

/-- A keyword at the start of a line, with blanks around it. -/
def leading (keyword : String) : Reader Unit := do
  blanks
  literal keyword
  someBlanks

/-- Whether a name begins with a capital. -/
def capitalised (name : List Char) : Bool := name.head?.any Char.isUpper

/-- The problem `p` if a line begins with `r` and what it reads fails `good`. -/
def complainUnless {α : Type} (r : Reader α) (good : α → Bool) (p : Problem) (line : Line) : List Problem :=
  match r.read? line with
  | some a => if good a then [] else [p]
  | none => []

/-! ### Names -/

/-- An import and the module it names. -/
def importModule : Reader (List Char) := do
  leading "import"
  span1 isNameChar

/-- An import of names and the module they come from. -/
def sourceModule : Reader (List Char) := do
  leading "from"
  let name ← span1 isNameChar
  someBlanks
  literal "import"
  wordEnd
  return name

/-- A keyword and the name behind it. -/
def namedAfter (keyword : String) : Reader (List Char) := do
  leading keyword
  span1 isNameChar

/-- An instance: the names of its type and its class. -/
def instanceNames : Reader (List Char × List Char) := do
  let type ← namedAfter "instance"
  blanks
  literal ":"
  blanks
  return (type, ← span1 isNameChar)

/-- A definition and its name. -/
def defined : Reader (List Char) := do
  leading "define"
  word isNameStart isNameChar

/-- Module names are in lower case. -/
def moduleProblems (line : Line) : List Problem :=
  complainUnless importModule (·.all isLowerChar) .moduleName line ++
    complainUnless sourceModule (·.all isLowerChar) .moduleName line

/-- Names of types begin with a capital. -/
def typeNameProblems (line : Line) : List Problem :=
  complainUnless (namedAfter "numerals") capitalised .numeralsTarget line ++
    ["inductive", "structure", "typeclass", "attributes"].flatMap (fun keyword =>
      complainUnless (namedAfter keyword) capitalised (.typeName keyword) line) ++
    complainUnless instanceNames (fun (type, _) => capitalised type) .instanceType line ++
    complainUnless instanceNames (fun (_, className) => capitalised className) .instanceClass line

/-! ### Types of parameters, results and bindings -/

/-- What is wrong with one parameter. -/
def parameterProblems (parameter : List Char) : List Problem :=
  if parameter.contains ':' then
    let type := trim ((parameter.dropWhile (· != ':')).drop 1)
    if type.isEmpty || capitalised type then [] else [.lowercaseType (String.ofList type)]
  else [.untypedParameter (String.ofList parameter)]

/-- What is wrong with a list of parameters. -/
def signatureProblems (signature : List Char) : List Problem :=
  ((commaPieces signature).filter (!·.isEmpty)).flatMap parameterProblems

/-- A result type behind a closing parenthesis. Where nothing but blanks follows the arrow, a space stands for it. -/
def resultType : Reader (List Char) := do
  literal ")"
  blanks
  literal "->"
  let gap ← span isBlank
  let type ← span fun c => isNameChar c || c == '[' || c == ']' || c == ',' || c == ' '
  if type.isEmpty && !gap.contains ' ' then failure else return trim type

/-- What is wrong with the result type in a line. -/
def resultProblems (line : Line) : List Problem :=
  match (first? resultType line).map (·.value) with
  | none => [.missingReturnType]
  | some type => if type.isEmpty || capitalised type then [] else [.lowercaseReturnType (String.ofList type)]

/-- Definitions give types to their parameters and to their result. -/
def definitionProblems (line : Line) : List Problem :=
  match defined.read? line with
  | none => []
  | some _ =>
    ((first? (between '(' ')') line).map fun o => signatureProblems o.value).getD [] ++ resultProblems line

/-- A binding gives a type before its value. -/
def bindingProblems (line : Line) : List Problem :=
  match (leading "let").read? line with
  | none => []
  | some _ => if line.contains '=' && !(line.takeWhile (· != '=')).contains ':' then [.untypedBinding] else []

/-- A quantifier and the text in its parentheses. -/
def binders (quantifier : String) : Reader (List Char) := do
  literal quantifier
  blanks
  between '(' ')'

/-- What is wrong with one list of binders. -/
def binderProblems (quantifier : String) (inner : List Char) : List Problem :=
  ((commaPieces inner).filter fun b => !b.isEmpty && !b.contains ':').map fun b =>
    .untypedBinder quantifier (String.ofList b)

/-- Binders give types to their variables. -/
def quantifierProblems (quantifier : String) (line : Line) : List Problem :=
  (found (atWordStart (binders quantifier)) line).flatMap (binderProblems quantifier)

/-- The parameters of a theorem. -/
def theoremParameters : Reader (List Char) := do
  leading "theorem"
  let _ ← span isNameChar
  blanks
  between '(' ')'

/-- Theorems give types to their parameters. -/
def theoremProblems (line : Line) : List Problem := ((theoremParameters.read? line).map signatureProblems).getD []

/-! ### All rules -/

/-- The mistakes in a line. -/
def lineErrors (line : Line) : List Problem :=
  moduleProblems line ++ typeNameProblems line ++ definitionProblems line ++ bindingProblems line ++
    quantifierProblems "forall" line ++ quantifierProblems "exists" line ++ theoremProblems line

/-- What merely looks odd in a line: a function with a capital, and signs of another markup. -/
def lineWarnings (line : Line) : List Problem :=
  complainUnless defined (·.head?.any Char.isLower) .functionName line ++
    if line.contains '$' || line.contains '\\' then [.foreignMarkup] else []

end AcornCatalog.Check
