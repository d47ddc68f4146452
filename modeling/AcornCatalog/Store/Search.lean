import AcornCatalog.Text.Blank

/-! Searching by patterns. In a pattern `%` stands for any run of characters and `_` for any one; letters of ASCII match
in both cases. A query is searched for anywhere in a text, and its own wildcards stay wildcards. Patterns and texts are
read only up to U+0000, and a pattern must not be too long. -/

namespace AcornCatalog.Search

open Text

/-- One place of a pattern. -/
inductive Wildcard where
  | anyRun
  | anyOne
  | exactly (c : Char)
  deriving DecidableEq, Repr

/-- Reads one character of a pattern. -/
def Wildcard.ofChar (c : Char) : Wildcard := if c = '%' then .anyRun else if c = '_' then .anyOne else .exactly c

/-- What a character is compared as: letters of ASCII as small ones, and U+FFFE and U+FFFF as U+FFFD. -/
def letter (c : Char) : Char := if c = '\ufffe' ∨ c = '\uffff' then '\ufffd' else c.toLower

/-- Whether two characters are compared as the same. -/
def sameLetter (a b : Char) : Bool := letter a == letter b

/-- The ends of a text, the whole text first. -/
def ends : List Char → List (List Char)
  | [] => [[]]
  | c :: cs => (c :: cs) :: ends cs

/-- What can be left of some texts after one place of a pattern. The texts are ends of one text, longest first, so
    those that a run leaves are the ends of the first. -/
def Wildcard.step (texts : List (List Char)) : Wildcard → List (List Char)
  | .anyRun => match texts with
    | [] => []
    | longest :: _ => ends longest
  | .anyOne => texts.filterMap fun
    | [] => none
    | _ :: cs => some cs
  | .exactly c => texts.filterMap fun
    | [] => none
    | d :: cs => if sameLetter c d then some cs else none

/-- What is read of a pattern or a text: all in front of the first U+0000. -/
def readPart (cs : List Char) : List Char := cs.takeWhile (· != '\x00')

/-- Whether a pattern fits a whole text, as far as the two are read. -/
def fits (pattern : List Char) (text : List Char) : Bool :=
  (((readPart pattern).map Wildcard.ofChar).foldl Wildcard.step [readPart text]).contains []

/-- The pattern that finds a query anywhere, blanks around the query left out. -/
def term (query : String) : String := "%" ++ String.ofList (trim query.toList) ++ "%"

/-- The most bytes that a pattern may have. -/
def maxPattern : Nat := 50000

/-- Whether the pattern of a query has too many bytes. -/
def tooLong (query : Option String) : Bool := query.any fun query => maxPattern < (term query).utf8ByteSize

/-- Whether one of some texts fits a query. No query, and the empty one, fit everything. -/
def found (query : Option String) (texts : List String) : Bool :=
  match query with
  | none => true
  | some query => query = "" || texts.any fun text => fits (term query).toList text.toList

/-- The condition of a query on some columns, and its parameters. -/
def clause (query : Option String) (columns : List String) : String × List String :=
  match query with
  | none | some "" => ("", [])
  | some query =>
    (" WHERE " ++ " OR ".intercalate (columns.map (· ++ " LIKE ?")), columns.map fun _ => term query)

end AcornCatalog.Search
