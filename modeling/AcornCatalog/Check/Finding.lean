/-! What a check can complain about. A problem is a cause with its data; the wording is given in one place. -/

namespace AcornCatalog.Check

/-- A mistake, or something that looks like one. -/
inductive Problem where
  | openComment
  | unmatchedClosing (found : Char)
  | mismatchedBracket (expected : Char) (line : Nat) (found : Char)
  | unclosedBracket (expected : Char)
  | moduleName
  | numeralsTarget
  | typeName (keyword : String)
  | instanceType
  | instanceClass
  | functionName
  | untypedParameter (parameter : String)
  | lowercaseType (type : String)
  | missingReturnType
  | lowercaseReturnType (type : String)
  | untypedBinding
  | untypedBinder (quantifier binder : String)
  | foreignMarkup
  deriving DecidableEq, Repr

/-- The wording of a problem. -/
def Problem.message : Problem → String
  | .openComment => "Unterminated /* */ comment."
  | .unmatchedClosing found => s!"Unmatched closing '{found}'."
  | .mismatchedBracket expected line found =>
    s!"Mismatched bracket: expected '{expected}' from line {line}, found '{found}'."
  | .unclosedBracket expected => s!"Unclosed '{expected}'."
  | .moduleName => "Module names must be lowercase alphanumeric with underscores."
  | .numeralsTarget => "numerals target type should start with an uppercase letter (e.g., Nat, Int)."
  | .typeName keyword => s!"{keyword} names should start with an uppercase letter."
  | .instanceType => "Instance type should start with an uppercase letter."
  | .instanceClass => "Typeclass name should start with an uppercase letter."
  | .functionName => "Function names typically start lowercase (camelCase)."
  | .untypedParameter parameter => s!"Parameter '{parameter}' is missing a type annotation."
  | .lowercaseType type => s!"Type '{type}' should start with an uppercase letter."
  | .missingReturnType => "Define statements require an explicit return type with '-> ReturnType'."
  | .lowercaseReturnType type => s!"Return type '{type}' should start with an uppercase letter."
  | .untypedBinding => "Let bindings require an explicit type annotation before '='."
  | .untypedBinder quantifier binder =>
    s!"{quantifier} binder '{binder}' is missing a type annotation (use name: Type)."
  | .foreignMarkup => "Possible LaTeX syntax detected; Acorn uses its own keywords and operators."

/-- A problem and the line it is on, counted from one. -/
structure Finding where
  line : Nat
  problem : Problem
  deriving DecidableEq, Repr

end AcornCatalog.Check
