/-! The condensed reference of the Acorn language that tools hand out. -/

namespace AcornCatalog

/-- The lines of the reference. -/
def referenceLines : List String :=
  ["# Acorn Syntax Reference",
   "",
   "This file distills the canonical Acorn syntax rules from `acorn_background.md` into a quick reference. Use it for linting, validation, and editor support.",
   "",
   "## Lexical Basics",
   "- File extension: `.ac`",
   "- One statement per line; line breaks are ignored inside `()` or immediately after infix operators.",
   "- Block delimiters: `\x7b ... \x7d`",
   "- Comments: `// line comment` or `/* multi-line comment */`",
   "- Built-in literals: `true`, `false`, numerals (type chosen by the active `numerals` declaration).",
   "",
   "## Naming Rules",
   "- Modules: lowercase alphanumeric plus `_`; filename = module name + `.ac`.",
   "- Types, theorems, structures, inductives, typeclasses: `PascalCase` (start uppercase).",
   "- Functions/definitions: `camelCase` (start lowercase).",
   "- Variables: start lowercase.",
   "- Type parameters: usually single uppercase letters in brackets, e.g., `List[T]`.",
   "",
   "## Imports and Numerals",
   "```acorn",
   "import nat",
   "from nat import Nat, divides",
   "numerals Nat  // selects the type for numerals like 0,1,2",
   "```",
   "",
   "## Core Declarations",
   "- **Inductive type**",
   "  ```acorn",
   "  inductive TypeName \x7b",
   "      ctor1",
   "      ctor2(ArgType)",
   "  \x7d",
   "  ```",
   "- **Structure**",
   "  ```acorn",
   "  structure TypeName \x7b",
   "      field1: Type1",
   "      field2: Type2",
   "  \x7d",
   "  ```",
   "- **Attributes / methods**",
   "  ```acorn",
   "  attributes TypeName \x7b",
   "      let constant = value",
   "      define method(self, x: T) -> U \x7b expression \x7d",
   "  \x7d",
   "  ```",
   "- **Typeclass + instance**",
   "  ```acorn",
   "  typeclass M: ClassName \x7b",
   "      op: (M, M) -> M",
   "      law(a: M, b: M) \x7b op(a,b) = op(b,a) \x7d",
   "  \x7d",
   "",
   "  instance TypeName: ClassName \x7b",
   "      let op = impl",
   "  \x7d",
   "  ```",
   "- **Functions**",
   "  ```acorn",
   "  define fname(a: A, b: B) -> R \x7b expression \x7d",
   "  let square: Nat -> Nat = function(n: Nat) \x7b n * n \x7d",
   "  ```",
   "- **Variables**",
   "  ```acorn",
   "  let name: Type = expr",
   "  let name: Type satisfy \x7b condition \x7d",
   "  let (a: A, b: B) satisfy \x7b constraint \x7d",
   "  ```",
   "- **Theorems**",
   "  ```acorn",
   "  theorem Name(args) \x7b conclusion \x7d",
   "  theorem Name(args) \x7b conclusion \x7d by \x7b proof_steps \x7d",
   "  theorem \x7b 2 + 2 = 4 \x7d",
   "  ```",
   "",
   "## Expressions and Control",
   "- Arithmetic and boolean infix operators: `+ - * / % and or not implies = != < <= > >=`",
   "- Conditional expression: `if condition \x7b expr \x7d else \x7b expr \x7d`",
   "- Proof branches / case analysis use `if ... \x7b ... \x7d else \x7b ... \x7d`",
   "- Pattern matching:",
   "  ```acorn",
   "  match value \x7b",
   "      Ctor(args) \x7b body \x7d",
   "      Ctor2 \x7b body \x7d",
   "  \x7d",
   "  ```",
   "- Quantifiers:",
   "  ```acorn",
   "  exists(x: T) \x7b predicate \x7d",
   "  forall(x: T) \x7b predicate \x7d",
   "  ```",
   "",
   "## Operator Methods",
   "Map attribute names to operators: `add -> +`, `sub -> -`, `mul -> *`, `div -> /`, `mod -> %`, `neg -> -` (unary), `gt -> >`, `lt -> <`, `gte -> >=`, `lte -> <=`.",
   "",
   "## Common Types (stdlib)",
   "`Bool`, `Nat`, `Int`, `Rat`, `Real`, `Complex`, `List[T]`, `Set[K]`, `Option[T]`, `Pair[T,U]` plus the algebraic hierarchy (`Semigroup`, `Monoid`, `Group`, `Ring`, `Field`, `MetricSpace`, etc.).",
   "",
   "## Structural/Typing Rules to Remember",
   "- All binders and parameters require explicit type annotations.",
   "- Numerals require an active `numerals` declaration to choose their type.",
   "- `Nat` subtraction is bounded at zero; division by zero returns zero for totality.",
   "- No LaTeX syntax; stay within Acorn keywords and operators.",
   "- Avoid circular module dependencies; only standard library imports are currently supported.",
   "",
   "This reference is intentionally concise; see `acorn_background.md` for the authoritative, full description."]

/-- The text of the reference; its last line is ended like the others. -/
def reference : String := String.join (referenceLines.map (· ++ "\n"))

end AcornCatalog
