import AcornCatalog.Text.Line
import AcornCatalog.Text.Occurrence

/-! How declarations and members begin. Each reader here takes the opening of a line, up to the name or to the brace. -/

namespace AcornCatalog.Header

open Text Reader

/-- A keyword and the blanks behind it. -/
def keyword (s : String) : Reader Unit := do
  literal s
  someBlanks

/-- The name of a type. -/
def typeName : Reader (List Char) := word Char.isUpper isNameChar

/-- The name of a function. A capital ends it. -/
def functionName : Reader (List Char) := lowerWord

/-- An import line: the module after `from`, if any, and the text of the list of names. -/
def importLine : Reader (Option (List Char) × List Char) := do
  let source ← maybe (do
    keyword "from"
    let path ← word isNameStart fun c => isNameChar c || c == '/' || c == '.'
    someBlanks
    return path)
  keyword "import"
  let names ← word isNameStart fun c => isNameChar c || c == ',' || isBlank c
  return (source, names)

/-- A theorem or postulate up to its name. -/
def statement (kind : String) : Reader (List Char) := do
  keyword kind
  word isNameStart isNameChar

/-- The letter that stands for the type a class or a block is about, with its colon. -/
def typeParam : Reader Char := do
  let c ← one Char.isUpper
  literal ":"
  someBlanks
  return c

/-- The list of parents after `extends`, up to the brace. The list may be left empty if two blanks mark its place. -/
def parents : Reader (List Char) := do
  literal "extends"
  let list ← span fun c => isNameChar c || c == ',' || isBlank c
  let names := trimStart list
  if names.length < list.length && !(names.isEmpty && list.length < 2) then return names else failure

/-- What follows the name of a class up to its brace. -/
def classTail : Reader (Option (List Char)) := do
  blanks
  let list ← maybe parents
  blanks
  literal "\x7b"
  return list

/-- The name of a class and its parents. -/
def className : Reader (List Char × Option (List Char)) := do
  let name ← typeName
  return (name, ← classTail)

/-- The same where `extends` is written onto the end of the name. -/
def gluedClassName : Reader (List Char × Option (List Char)) := do
  let word ← typeName
  let glue := "extends".toList
  if glue.isSuffixOf word then
    set (glue ++ (← get))
    return (word.take (word.length - glue.length), ← classTail)
  else failure

/-- A class up to its brace: its parameter, its name and its parents. -/
def typeClass : Reader (Option Char × List Char × Option (List Char)) := do
  keyword "typeclass"
  let param ← maybe typeParam
  let rest ← orElse className gluedClassName
  return (param, rest)

/-- Type parameters in square brackets. -/
def typeParams : Reader (List Char) := do
  let list ← between '[' ']'
  if list.isEmpty then failure else return list

/-- A structure or inductive type up to its brace: its name and its parameters. -/
def typeDeclaration (kind : String) : Reader (List Char × Option (List Char)) := do
  keyword kind
  let name ← typeName
  let params ← maybe typeParams
  blanks
  literal "\x7b"
  return (name, params)

/-- A definition up to its name. -/
def definition : Reader (List Char) := do
  keyword "define"
  functionName

/-- An attributes block up to its brace: the type it extends, as written. -/
def attributes : Reader (List Char) := do
  keyword "attributes"
  let _ ← maybe typeParam
  let target ← word Char.isUpper fun c =>
    isNameChar c || c == '<' || c == '>' || c == '[' || c == ']' || c == ',' || isBlank c
  literal "\x7b"
  return trimEnd target

/-- An instance up to the name of its class. -/
def instanceOf : Reader (List Char × List Char) := do
  keyword "instance"
  let type ← typeName
  literal ":"
  someBlanks
  return (type, ← typeName)

/-- A binding up to its colon. Its name may be a numeral. -/
def binding : Reader (List Char) := do
  keyword "let"
  let name ← span1 isNameChar
  blanks
  literal ":"
  return name

/-- A field of a class that fills its line: a name and a type without arrows or parentheses. -/
def classField : Reader (List Char × List Char) := do
  let name ← functionName
  blanks
  literal ":"
  blanks
  let type ← span1 fun c => isNameChar c || c == '[' || c == ']' || c == ',' || isBlank c
  textEnd
  return (name, type)

/-- A law or method of a class up to its brace: its name and its parameters. -/
def classMember : Reader (List Char × List Char) := do
  let name ← functionName
  blanks
  let params ← maybe (between '(' ')')
  blanks
  literal "\x7b"
  return (name, params.getD [])

/-- The opening of a proof. -/
def proof : Reader Unit := do
  literal "by"
  blanks
  literal "\x7b"

/-- A type without the parameters in its square brackets. `held` is the text since a bracket that has not closed;
    brackets do not reach across a line feed. -/
def bareType (held : Option (List Char)) : List Char → List Char
  | [] => held.getD []
  | c :: cs =>
    match held with
    | none => if c = '[' then bareType (some ['[']) cs else c :: bareType none cs
    | some text =>
      if c = ']' then bareType none cs
      else if c = '\n' then text ++ '\n' :: bareType none cs
      else bareType (some (text ++ [c])) cs

end AcornCatalog.Header
