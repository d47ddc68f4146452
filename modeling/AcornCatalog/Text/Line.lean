import AcornCatalog.Text.Blank

/-! Lines: where a text breaks, cutting it into lines or at a separator, and joining the pieces again. -/

namespace AcornCatalog.Text

/-- A line of a text, without the break that ends it. -/
abbrev Line := List Char

/-- The characters that end a line. A carriage return and the line feed after it are one break. -/
def isLineBreak (c : Char) : Bool :=
  let n := c.toNat
  (0x0A ≤ n && n ≤ 0x0D) || (0x1C ≤ n && n ≤ 0x1E) || n == 0x85 || n == 0x2028 || n == 0x2029

/-- Puts a character in front of the first piece of a text that has been cut. -/
def consFirst (c : Char) : List Line → List Line
  | [] => [[c]]
  | piece :: pieces => (c :: piece) :: pieces

/-- Cuts a text into lines. A break at the very end starts no further line, so the empty text has none. -/
def lines : List Char → List Line
  | [] => []
  | '\r' :: '\n' :: cs => [] :: lines cs
  | c :: cs => if isLineBreak c then [] :: lines cs else consFirst c (lines cs)

/-- Cuts a text at every `sep`; there is always one piece more than there are separators. -/
def cut (sep : Char) : List Char → List Line
  | [] => [[]]
  | c :: cs => if c = sep then [] :: cut sep cs else consFirst c (cut sep cs)

/-- Joins lines with a line feed between any two. -/
def joinLines (ls : List Line) : List Char := ['\n'].intercalate ls

/-- Writes every carriage return, and the line feed after it if there is one, as a single line feed. -/
def unifyBreaks : List Char → List Char
  | [] => []
  | '\r' :: '\n' :: cs => '\n' :: unifyBreaks cs
  | c :: cs => (if c = '\r' then '\n' else c) :: unifyBreaks cs

/-- The pieces between commas, each trimmed. -/
def commaPieces (cs : List Char) : List Line := (cut ',' cs).map trim

/-- The part of a dotted name behind its last dot. -/
def lastPart (name : String) : String := String.ofList ((cut '.' name.toList).getLastD [])

/-- Whether `needle` stands somewhere in a text. -/
def occursIn (needle : List Char) : List Char → Bool
  | [] => needle.isEmpty
  | c :: cs => needle.isPrefixOf (c :: cs) || occursIn needle cs

end AcornCatalog.Text
