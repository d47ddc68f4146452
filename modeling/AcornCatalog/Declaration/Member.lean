import AcornCatalog.Declaration.Basic
import AcornCatalog.Declaration.Block
import AcornCatalog.Declaration.Header

/-! Members of blocks: the fields, laws and methods of a class, the definitions of an attributes block, and the bindings
of an instance. Lines that begin no member are passed over. -/

namespace AcornCatalog

open Text Reader

/-- Whether a line, trimmed, is empty or a comment. -/
def isIdleLine (trimmed : Line) : Bool := trimmed.isEmpty || "//".toList.isPrefixOf trimmed

/-- The members in the text of a block. `step` is given a trimmed line that is neither empty nor a comment, the line
    itself and those below. -/
def membersBy {α : Type} (step : Line → Line → List Line → Option (α × Nat)) (body : List Char) : List α :=
  sweep (fun _ line rest =>
    let trimmed := trim line
    if isIdleLine trimmed then ([], 0)
    else match step trimmed line rest with
      | some (found, used) => ([found], used)
      | none => ([], 0)) 0 0 (cut '\n' body)

/-- The lines of a member that starts with `line`: as many more as its braces ask for. -/
def braceLines (line : Line) (rest : List Line) : List Line := line :: rest.take (openLines (braceBalance line) rest)

/-! ### Classes -/

/-- A field of a class, as declared on one line. -/
def ClassMember.field (name type trimmed : Line) : ClassMember :=
  { name := String.ofList name
    kind := .field
    signature := String.ofList (name ++ ": ".toList ++ trim type)
    source := String.ofList trimmed }

/-- A law or method of a class. It is a method if its text speaks of a definition or its parameters have an arrow. -/
def ClassMember.law (name params source : List Char) : ClassMember :=
  { name := String.ofList name
    kind := if occursIn "define".toList source || occursIn "->".toList params then .method else .law
    signature := String.ofList (name ++ '(' :: params ++ [')'])
    body := some (String.ofList (trim source))
    source := String.ofList source }

/-- The member of a class that begins at a line. -/
def classMemberAt (trimmed line : Line) (rest : List Line) : Option (ClassMember × Nat) :=
  match Header.classField.read? trimmed with
  | some (name, type) => some (.field name type trimmed, 0)
  | none =>
    (Header.classMember.read? trimmed).map fun (name, params) =>
      let ls := braceLines line rest
      (.law name params (joinLines ls), ls.length - 1)

/-- The members in the body of a class. -/
def classMembers (body : List Char) : List ClassMember := membersBy classMemberAt body

/-! ### Attributes blocks -/

/-- The lines of a member of an attributes block: just the first, unless a brace opens on it. -/
def attributeLines (line : Line) (rest : List Line) : List Line :=
  if line.contains '{' then braceLines line rest else [line]

/-- The text of a definition up to its brace. -/
def signatureOf (source : List Char) : List Char := trim (source.takeWhile (· != '{'))

/-- The member of an attributes block for `target` that begins at a line. -/
def attributeAt (target : String) (trimmed line : Line) (rest : List Line) : Option (Definition × Nat) :=
  let ls := attributeLines line rest
  let source := joinLines ls
  let text := String.ofList (trim source)
  match Header.binding.read? trimmed with
  | some name =>
    some ({ name := target ++ "." ++ String.ofList name, kind := .attributeConstant, source := String.ofList source,
            signature := text, body := text }, ls.length - 1)
  | none =>
    (Header.definition.read? trimmed).map fun name =>
      ({ name := target ++ "." ++ String.ofList name, kind := .attributeMethod, source := String.ofList source,
         signature := String.ofList (signatureOf source), body := text }, ls.length - 1)

/-- The members in the body of an attributes block for `target`. -/
def attributeMembers (target : String) (body : List Char) : List Definition := membersBy (attributeAt target) body

/-! ### Instances -/

/-- How many of the lines below a binding belong to it. It runs on until a line ends in a brace or a blank line comes;
    a blank line directly below the binding is part of it. -/
def bindingTail : Line → List Line → Nat
  | _, [] => 0
  | current, line :: rest =>
    if (trim current).getLast? = some '}' then 0
    else if allBlank line || rest.head?.any allBlank then 1
    else bindingTail line rest + 1

/-- The binding of an instance for `typeName` that begins at a line. Without an equals sign it has one line. -/
def bindingAt (typeName : String) (trimmed line : Line) (rest : List Line) : Option (Definition × Nat) :=
  (Header.binding.read? trimmed).map fun name =>
    let used := if line.contains '=' then bindingTail line rest else 0
    let source := joinLines (line :: rest.take used)
    let text := String.ofList (trim source)
    ({ name := typeName ++ "." ++ String.ofList name, kind := .instanceMember, source := String.ofList source,
       signature := text, body := text }, used)

/-- The bindings in the body of an instance for `typeName`. -/
def instanceMembers (typeName : String) (body : List Char) : List Definition := membersBy (bindingAt typeName) body

end AcornCatalog
