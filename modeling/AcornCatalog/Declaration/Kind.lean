/-! The kinds of declarations and of class members, and the labels they are stored and shown under. -/

namespace AcornCatalog

/-- What a declaration is. Members of a block have kinds of their own, and a catalog may hold labels it does not know. -/
inductive Kind where
  | proposition
  | postulate
  | typeClass
  | structureType
  | inductiveType
  | definition
  | attributesBlock
  | instanceBlock
  | classMethod
  | classField
  | classLaw
  | attributeConstant
  | attributeMethod
  | instanceMember
  | other (label : String)
  deriving DecidableEq, Repr

namespace Kind

/-- The label of a kind. -/
def label : Kind → String
  | .proposition => "theorem"
  | .postulate => "axiom"
  | .typeClass => "typeclass"
  | .structureType => "structure"
  | .inductiveType => "inductive"
  | .definition => "define"
  | .attributesBlock => "attributes"
  | .instanceBlock => "instance"
  | .classMethod => "typeclass_method"
  | .classField => "typeclass_field"
  | .classLaw => "typeclass_axiom"
  | .attributeConstant => "attributes_constant"
  | .attributeMethod => "attributes_method"
  | .instanceMember => "instance_member"
  | .other label => label

/-- The kinds that have a label of their own. -/
def known : List Kind :=
  [.proposition, .postulate, .typeClass, .structureType, .inductiveType, .definition, .attributesBlock, .instanceBlock,
   .classMethod, .classField, .classLaw, .attributeConstant, .attributeMethod, .instanceMember]

/-- The kind with a given label. -/
def ofLabel (label : String) : Kind := (known.find? (·.label == label)).getD (.other label)

/-- Members of classes and of attributes blocks are known by the name of their type and their own. -/
def isQualifiedMember : Kind → Bool
  | .classMethod | .classField | .classLaw | .attributeConstant | .attributeMethod => true
  | _ => false

end Kind

/-- What a member of a class is: an operation with a body, a typed field, or a law that instances obey. -/
inductive MemberKind where
  | method
  | field
  | law
  | other (label : String)
  deriving DecidableEq, Repr

namespace MemberKind

/-- The label of a member kind. -/
def label : MemberKind → String
  | .method => "method"
  | .field => "field"
  | .law => "axiom"
  | .other label => label

/-- The member kind with a given label. -/
def ofLabel (label : String) : MemberKind :=
  if label = "method" then .method
  else if label = "field" then .field
  else if label = "axiom" then .law
  else .other label

end MemberKind

end AcornCatalog
