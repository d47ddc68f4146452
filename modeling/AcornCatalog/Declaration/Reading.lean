import AcornCatalog.Declaration.Member

/-! Reading one declaration off the front of a list of lines. Each reader is given the line where the declaration starts,
with its number, and the lines below, and tells how many of those the declaration uses. -/

namespace AcornCatalog

open Text Reader

/-- Where the lines under reading come from. -/
structure Place where
  file : SourcePath
  number : Nat
  deriving DecidableEq, Repr

/-- The location of a declaration that starts here; line numbers start from zero and locations from one. -/
def Place.location (p : Place) : Location := ⟨p.file, p.number + 1⟩

/-- The column of the first brace of a line. -/
def braceColumn? (line : Line) : Option Nat := line.idxOf? '{'

/-- The block opened by the first brace of the first line. -/
def firstBlock? (line : Line) (rest : List Line) : Option Block :=
  (braceColumn? line).bind fun column => Block.capture (line :: rest) (column + 1)

/-- The first line and `height` whole lines below, trimmed. -/
def wholeLines (line : Line) (rest : List Line) (height : Nat) : String :=
  String.ofList (trim (joinLines (line :: rest.take height)))

/-- The lines from `first` down to `column` of the line `height` below it. A first line that is also the last is taken
    whole. -/
def excerpt (first : Line) (rest : List Line) (height column : Nat) : List Line :=
  match height with
  | 0 => [first]
  | height + 1 => first :: (rest.take height ++ [(rest.getD height []).take column])

/-- Pieces between commas, trimmed, as strings. -/
def nameList (cs : List Char) : List String := (commaPieces cs).map String.ofList

/-- Reads an import line. -/
def Import.read? (line : Line) : Option Import :=
  (Header.importLine.read? line).map fun (source, names) =>
    { fromModule := source.map String.ofList
      names := (nameList names).filter (· != "")
      source := String.ofList (trim line) }

/-- The column behind the brace that opens a proof, in what is left of the line where the head closes. -/
def proofColumn? (remainder : Line) : Option Nat :=
  (first? Header.proof remainder).map fun o =>
    o.column + ((remainder.drop o.column).takeWhile (· != '{')).length + 1

/-- The proof block that opens in the line where `head` closes: `none` if none opens, `some none` if it never closes. -/
def proofBlock? (ls : List Line) (head : Block) : Option (Option Block) :=
  let below := ls.drop head.height
  (proofColumn? ((below.headD []).drop head.column)).map fun column => Block.capture below (head.column + column)

/-- Reads a theorem or postulate. Its head reaches to the brace that closes its first block, and a theorem may go on
    with a proof in the same line. -/
def Statement.read? (place : Place) (line : Line) (rest : List Line) : Option (Statement × Nat) := do
  let start := trimStart line
  let postulated := "axiom".toList.isPrefixOf start
  let name ← (Header.statement (if postulated then "axiom" else "theorem")).read? start
  let head ← firstBlock? line rest
  let proof? ← (if postulated then none else proofBlock? (line :: rest) head).mapM id
  let height := head.height + (proof?.map (·.height)).getD 0
  let column := (proof?.map (·.column)).getD head.column
  let text := fun height column => String.ofList (trim (joinLines (excerpt start rest height column)))
  return ({ name := String.ofList name
            kind := if postulated then .postulate else .proposition
            source := text height column
            location := some place.location
            head := text head.height head.column
            proof := String.ofList ((proof?.map (·.content)).getD [])
            raw := text height column }, height)

/-- Reads a class with its members. -/
def TypeClass.read? (place : Place) (line : Line) (rest : List Line) : Option (TypeClass × Nat) := do
  let (param, name, parents) ← Header.typeClass.read? line
  let block ← firstBlock? line rest
  return ({ name := String.ofList name
            kind := .typeClass
            source := wholeLines line rest block.height
            location := some place.location
            typeParam := (param.map fun c => String.ofList [c]).getD "Self"
            parents := (parents.map nameList).getD []
            members := (classMembers block.content).map .member }, block.height)

/-- The constraint block of a structure, in the line where `block` closes: `none` if there is none, `some none` if it
    never closes. -/
def constraintBlock? (ls : List Line) (block : Block) : Option (Option Block) :=
  let below := ls.drop block.height
  let remainder := (below.headD []).drop block.column
  if occursIn "constraint".toList remainder then
    (braceColumn? remainder).map fun column => Block.capture below (block.column + column + 1)
  else none

/-- Reads a structure with its constraint. -/
def StructureType.read? (place : Place) (line : Line) (rest : List Line) : Option (StructureType × Nat) := do
  let (name, params) ← (Header.typeDeclaration "structure").read? line
  let block ← firstBlock? line rest
  let constraint? ← (constraintBlock? (line :: rest) block).mapM id
  let height := block.height + (constraint?.map (·.height)).getD 0
  return ({ name := String.ofList name
            kind := .structureType
            source := wholeLines line rest height
            location := some place.location
            typeParams := (params.map nameList).getD []
            constraint := constraint?.map fun b => String.ofList b.content }, height)

/-- Reads an inductive type. -/
def InductiveType.read? (place : Place) (line : Line) (rest : List Line) : Option (InductiveType × Nat) := do
  let (name, params) ← (Header.typeDeclaration "inductive").read? line
  let block ← firstBlock? line rest
  return ({ name := String.ofList name
            kind := .inductiveType
            source := wholeLines line rest block.height
            location := some place.location
            typeParams := (params.map nameList).getD [] }, block.height)

/-- Reads a definition. -/
def Definition.read? (place : Place) (line : Line) (rest : List Line) : Option (Definition × Nat) := do
  let name ← Header.definition.read? line
  let block ← firstBlock? line rest
  return ({ name := String.ofList name
            kind := .definition
            source := wholeLines line rest block.height
            location := some place.location
            signature := String.ofList (trim (line.takeWhile (· != '{')))
            body := String.ofList block.content }, block.height)

/-- Reads an attributes block with its members, which belong to the type without its parameters. -/
def AttributesBlock.read? (place : Place) (line : Line) (rest : List Line) : Option (AttributesBlock × Nat) := do
  let target ← Header.attributes.read? line
  let block ← firstBlock? line rest
  let base := String.ofList (Header.bareType none target)
  return ({ name := base ++ "_attributes"
            kind := .attributesBlock
            source := wholeLines line rest block.height
            location := some place.location
            targetType := base
            members := attributeMembers base block.content }, block.height)

/-- Reads an instance. Without a brace on its line it has no bindings of its own. -/
def InstanceBlock.read? (place : Place) (line : Line) (rest : List Line) : Option (InstanceBlock × Nat) := do
  let (type, «class») ← Header.instanceOf.read? line
  let typeName := String.ofList type
  let bare : InstanceBlock :=
    { name := typeName ++ "_" ++ String.ofList «class» ++ "_instance"
      kind := .instanceBlock
      source := String.ofList (trim line)
      location := some place.location
      typeName := typeName
      className := String.ofList «class» }
  if line.contains '{' then
    let block ← firstBlock? line rest
    return ({ bare with
              source := wholeLines line rest block.height
              members := instanceMembers typeName block.content }, block.height)
  else return (bare, 0)

/-! ### Members as declarations of their own -/

/-- A class member as a declaration, at the place of its class. -/
def TypeClass.expandMember (d : TypeClass) (m : ClassMember) : Declaration :=
  let item : Item := { name := d.name ++ "." ++ m.name, kind := .classLaw, source := m.source, location := d.location }
  match m.kind with
  | .method =>
    .definition { toItem := { item with kind := .classMethod }, signature := m.signature, body := m.body.getD "" }
  | .field => .definition { toItem := { item with kind := .classField }, signature := m.signature }
  | _ => .statement { toItem := item, head := m.signature, raw := m.source }

/-- The members of a class as declarations. -/
def TypeClass.expand (d : TypeClass) : List Declaration :=
  d.members.filterMap fun
    | .member m => some (d.expandMember m)
    | .loose _ => none

/-- An attributes block whose members stand at its own place. -/
def AttributesBlock.located (d : AttributesBlock) : AttributesBlock :=
  { d with members := d.members.map fun m => { m with location := d.location } }

/-- An instance whose members stand at its own place. -/
def InstanceBlock.located (d : InstanceBlock) : InstanceBlock :=
  { d with members := d.members.map fun m => { m with location := d.location } }

end AcornCatalog
