import AcornCatalog.Text.Alphanumeric

/-! Characters of names. Names of the language are ASCII, while the ends of a word are felt by every letter and number,
so that `ℕat` is not the name `at` with something in front. -/

namespace AcornCatalog.Text

/-- Characters that words consist of: letters and numbers of any script, and the underscore. -/
def isWordChar (c : Char) : Bool := isAlphanumeric c || c == '_'

/-- Characters of a name after its first. -/
def isNameChar (c : Char) : Bool := c.isAlphanum || c == '_'

/-- Characters a name of either case begins with. -/
def isNameStart (c : Char) : Bool := c.isAlpha || c == '_'

/-- Characters a variable or function name begins with. -/
def isLowerStart (c : Char) : Bool := c.isLower || c == '_'

/-- Characters of a variable or function name after its first. -/
def isLowerChar (c : Char) : Bool := c.isLower || c.isDigit || c == '_'

end AcornCatalog.Text
