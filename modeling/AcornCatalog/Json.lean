import AcornCatalog.Text.Quoted

/-! JSON values with their fields in order, and the indented text that tool answers carry. -/

namespace AcornCatalog

/-- A JSON value without fractions; the fields of an object keep their order. -/
inductive Json where
  | null
  | bool (b : Bool)
  | int (n : Int)
  | str (s : String)
  | arr (items : List Json)
  | obj (fields : List (String × Json))
  deriving Inhabited

namespace Json

open Text

/-- A text or null. -/
def ofText? : Option String → Json
  | none => .null
  | some s => .str s

/-- A number or null. -/
def ofInt? : Option Int → Json
  | none => .null
  | some n => .int n

/-- The value of the first field of that name, if the value is an object. -/
def field? (key : String) : Json → Option Json
  | .obj fields => fields.lookup key
  | _ => none

/-- The text that a value is, if it is one. -/
def text? : Json → Option String
  | .str s => some s
  | _ => none

mutual

/-- A value as it is shown inside a list or an object, with quotes around texts. -/
def quoted : Json → String
  | .null => "None"
  | .bool b => if b then "True" else "False"
  | .int n => toString n
  | .str s => Text.quoted s
  | .arr items => "[" ++ quotedItems items ++ "]"
  | .obj fields => "\x7b" ++ quotedFields fields ++ "\x7d"

/-- The items of a list, with commas between them. -/
def quotedItems : List Json → String
  | [] => ""
  | [item] => quoted item
  | item :: items => quoted item ++ ", " ++ quotedItems items

/-- The fields of an object, with commas between them. -/
def quotedFields : List (String × Json) → String
  | [] => ""
  | [(key, value)] => Text.quoted key ++ ": " ++ quoted value
  | (key, value) :: fields => Text.quoted key ++ ": " ++ quoted value ++ ", " ++ quotedFields fields

end

/-- A value as a part of a name: a text as it is, and all else as it is shown inside a list. -/
def shown : Json → String
  | .str s => s
  | value => value.quoted

/-- One unit of UTF-16 as an escape. -/
def escapedUnit (n : Nat) : List Char := '\\' :: 'u' :: hexDigits 4 n

/-- How a character is written inside a string: everything outside printable ASCII is escaped, above U+FFFF as a pair
    of surrogates. -/
def escapedChar (c : Char) : List Char :=
  if c = '"' ∨ c = '\\' then ['\\', c]
  else if c = '\n' then ['\\', 'n']
  else if c = '\r' then ['\\', 'r']
  else if c = '\t' then ['\\', 't']
  else if c.toNat = 0x08 then ['\\', 'b']
  else if c.toNat = 0x0C then ['\\', 'f']
  else if 0x20 ≤ c.toNat ∧ c.toNat ≤ 0x7E then [c]
  else if c.toNat < 0x10000 then escapedUnit c.toNat
  else
    let n := c.toNat - 0x10000
    escapedUnit (0xD800 + n / 0x400) ++ escapedUnit (0xDC00 + n % 0x400)

/-- A string with its quotes. -/
def escaped (s : String) : String := "\"" ++ String.ofList (s.toList.flatMap escapedChar) ++ "\""

/-- The start of a line at a depth: two spaces for each level. -/
def lineStart (depth : Nat) : String := "\n" ++ String.ofList (List.replicate (2 * depth) ' ')

mutual

/-- A value as indented text. Empty lists and objects stay on one line. -/
def pretty (depth : Nat) : Json → String
  | .null => "null"
  | .bool b => if b then "true" else "false"
  | .int n => toString n
  | .str s => escaped s
  | .arr [] => "[]"
  | .arr (item :: items) =>
    "[" ++ lineStart (depth + 1) ++ pretty (depth + 1) item ++ prettyItems (depth + 1) items ++ lineStart depth ++ "]"
  | .obj [] => "\x7b\x7d"
  | .obj ((key, value) :: fields) =>
    "\x7b" ++ lineStart (depth + 1) ++ escaped key ++ ": " ++ pretty (depth + 1) value ++
      prettyFields (depth + 1) fields ++ lineStart depth ++ "\x7d"

/-- The items after the first, each behind a comma and on a line of its own. -/
def prettyItems (depth : Nat) : List Json → String
  | [] => ""
  | item :: items => "," ++ lineStart depth ++ pretty depth item ++ prettyItems depth items

/-- The fields after the first, each behind a comma and on a line of its own. -/
def prettyFields (depth : Nat) : List (String × Json) → String
  | [] => ""
  | (key, value) :: fields =>
    "," ++ lineStart depth ++ escaped key ++ ": " ++ pretty depth value ++ prettyFields depth fields

end

/-- A value as the text of an answer. -/
def text (value : Json) : String := value.pretty 0

end Json

end AcornCatalog
