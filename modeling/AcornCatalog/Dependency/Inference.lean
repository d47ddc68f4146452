import AcornCatalog.Dependency.Annotation
import AcornCatalog.Dependency.TypeContext
import AcornCatalog.Text.Sorted

/-! What a text depends on: the types and members it names, the methods behind its operators, method calls and
properties as far as the types of its variables are annotated, and the functions it calls. -/

namespace AcornCatalog.Dependency

open Text Reader

/-- A type and a member in lower case, as a whole word. -/
def qualifiedMember : Reader (List Char × List Char) := do
  let type ← word Char.isUpper isNameChar
  literal "."
  let member ← lowerWord
  wordEnd
  return (type, member)

/-- The name of a type of two characters or more; a single capital is a type parameter. -/
def longTypeName : Reader (List Char) := do
  let type ← word Char.isUpper isNameChar
  wordEnd
  if type.length < 2 then failure else return type

/-- An operator sign. A comparison takes the equals sign behind it. -/
def operatorSign : Reader String := do
  let c ← one fun c => "+-*/%<>".toList.contains c
  if c == '<' || c == '>' then
    match ← maybe (one (· == '=')) with
    | some _ => return String.ofList [c, '=']
    | none => return String.ofList [c]
  else return String.ofList [c]

/-- Two operands with an operator between them: the left operand and the operator. -/
def operation : Reader (List Char × String) := do
  let left ← lowerWord
  blanks
  let sign ← operatorSign
  blanks
  let _ ← lowerWord
  return (left, sign)

/-- A method called on a variable. -/
def methodCall : Reader (List Char × List Char) := do
  let owner ← lowerWord
  literal "."
  let method ← lowerWord
  blanks
  literal "("
  return (owner, method)

/-- Takes nothing where `name` is not called. Where it is, its last character is given back; at least one must stay. -/
def uncalled (name : List Char) : Reader (List Char) := fun cs =>
  if (trimStart cs).head? = some '(' then
    if name.dropLast.isEmpty then none else some (name.dropLast, name.drop (name.length - 1) ++ cs)
  else some (name, cs)

/-- A property of a variable. -/
def property : Reader (List Char × List Char) := do
  let owner ← lowerWord
  literal "."
  let name ← lowerWord
  return (owner, ← uncalled name)

/-- A function called by a whole name that no dot precedes. -/
def functionCall : Probe (List Char) := fun before =>
  if before.any fun c => c == '.' || isNameChar c then failure
  else do
    let name ← lowerWord
    blanks
    literal "("
    return name

/-- Words with a capital that are not types. -/
def capitalWords : List String := ["If", "Then", "Else", "Match", "Case", "True", "False"]

/-- Words that an opening parenthesis may follow without a call. -/
def callingWords : List String := ["if", "while", "for", "match", "forall", "exists", "let", "satisfy"]

/-- The types of the variables in scope: what the signature says, overridden by the quantifiers of the text. -/
def contextOf (text signature : String) : TypeContext :=
  { variableTypes := (annotations signature).insertAll (quantified text) }

/-- The non-empty type of a variable. -/
def TypeContext.owner? (c : TypeContext) (name : List Char) : Option String :=
  (c.typeOf? (String.ofList name)).filter (· != "")

/-- A type and a qualified name that it owns. -/
def ownedNames (type : String) (member : List Char) : List String := [type, type ++ "." ++ String.ofList member]

/-- What the operations in a text stand for. -/
def operationNames (c : TypeContext) (cs : List Char) : List String :=
  (found (anywhere operation) cs).flatMap fun (left, sign) =>
    match c.owner? left with
    | none => []
    | some type => match operatorMethod? sign (some type) false with
      | none => []
      | some method => [method, type]

/-- What the members of variables that `r` reads stand for. -/
def memberNames (c : TypeContext) (r : Reader (List Char × List Char)) (cs : List Char) : List String :=
  (found (anywhere r) cs).flatMap fun (owner, member) =>
    match c.owner? owner with
    | none => []
    | some type => ownedNames type member

/-- The functions called in a text. A variable is no function, nor is a name of one character. -/
def functionNames (c : TypeContext) (cs : List Char) : List String :=
  ((found functionCall cs).map String.ofList).filter fun name =>
    !callingWords.contains name && (c.typeOf? name).isNone && 1 < name.length

/-- The names that a text depends on, with `signature` for the types of its variables. -/
def dependencies (text signature : String) : List String :=
  let cs := text.toList
  let c := contextOf text signature
  sortedDistinct (
    (annotations signature).map (·.2) ++ (quantified text).map (·.2) ++
    (found (atWordStart qualifiedMember) cs).flatMap (fun (type, member) => ownedNames (String.ofList type) member) ++
    ((found (atWordStart longTypeName) cs).map String.ofList).filter (!capitalWords.contains ·) ++
    operationNames c cs ++ memberNames c methodCall cs ++ memberNames c property cs ++ functionNames c cs)

/-- Names without a declaration's own, qualified or not. -/
def withoutSelf (name : String) (names : List String) : List String :=
  names.filter fun n => n != name && n != lastPart name

/-- Type parameters in square brackets. -/
def bracketed : Reader Unit := do
  let inner ← between '[' ']'
  if inner.isEmpty then failure

/-- A theorem up to the end of its parameters. -/
def theoremSignature : Reader Unit := do
  literal "theorem"
  someBlanks
  let _ ← lowerWord
  let _ ← maybe bracketed
  blanks
  let _ ← between '(' ')'

/-- A definition up to its return type. Everything behind its name may be missing. -/
def definitionSignature : Reader Unit := do
  orElse (literal "define") (orElse (literal "inductive") (orElse (literal "structure") (literal "typeclass")))
  someBlanks
  let _ ← word isNameStart isNameChar
  let _ ← maybe bracketed
  blanks
  let _ ← maybe (between '(' ')')
  let _ ← maybe do
    blanks
    literal "->"
    blanks
    span1 fun c => isNameChar c || c == '<' || c == '>' || c == '[' || c == ']'

/-- What a theorem depends on, apart from itself. Without a list of parameters its whole head is its signature. -/
def theoremDependencies (name head proof : String) : List String :=
  let signature := ((theoremSignature.taken? head.toList).map String.ofList).getD head
  withoutSelf name (dependencies (head ++ "\n" ++ proof) signature)

/-- What a definition depends on, apart from itself. -/
def definitionDependencies (name body : String) : List String :=
  let signature := ((definitionSignature.taken? body.toList).map String.ofList).getD ""
  withoutSelf name (dependencies body signature)

end AcornCatalog.Dependency
