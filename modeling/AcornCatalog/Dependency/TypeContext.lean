import AcornCatalog.OrderedMap
import AcornCatalog.Text.Line
import AcornCatalog.Text.Uppercase

/-! Types of variables and literals, and the methods that operators stand for. -/

namespace AcornCatalog.Dependency

open Text

/-- The types of the variables in scope, and the types known by name. -/
structure TypeContext where
  variableTypes : OrderedMap String := []
  knownTypes : List String := []
  deriving DecidableEq, Repr

namespace TypeContext

/-- Gives a variable a type. -/
def addVariable (c : TypeContext) (name type : String) : TypeContext :=
  { c with variableTypes := c.variableTypes.insert name type }

/-- The type of a variable. -/
def typeOf? (c : TypeContext) (name : String) : Option String := c.variableTypes.get? name

/-- Makes a type known. -/
def addKnownType (c : TypeContext) (type : String) : TypeContext :=
  if c.knownTypes.contains type then c else { c with knownTypes := c.knownTypes ++ [type] }

end TypeContext

/-- The methods of the operators between two operands. -/
def binaryMethods : List (String × String) :=
  [(">", "gt"), ("<", "lt"), (">=", "gte"), ("<=", "lte"), ("+", "add"), ("-", "sub"), ("*", "mul"), ("/", "div"),
   ("%", "mod")]

/-- The methods of the operators in front of one operand. -/
def unaryMethods : List (String × String) := [("-", "neg")]

/-- The qualified method that an operator stands for. The type of the left operand decides; an empty type counts as
    none. -/
def operatorMethod? (operator : String) (left : Option String) (unary : Bool) : Option String :=
  match (if unary then unaryMethods else binaryMethods).lookup operator, left with
  | some method, some type => if type = "" then none else some (type ++ "." ++ method)
  | _, _ => none

/-- The type of a literal: written in front of a dot and a capital, or that of the truth values. -/
def literalType? (literal : String) : Option String :=
  let cs := literal.toList
  if cs.contains '.' && cs.head?.any isUppercase then some (String.ofList (cs.takeWhile (· != '.')))
  else if literal = "true" ∨ literal = "false" then some "Bool"
  else none

end AcornCatalog.Dependency
