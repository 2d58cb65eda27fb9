/-!
TOML values. What no setting can be made of keeps only its kind.
-/
namespace KeyedBlocks.Toml

inductive Value
  | text (s : String)
  | integer (n : Int)
  | float
  | boolean
  /-- A date, a time, or both. -/
  | moment
  | array (items : List Value)
  | table (fields : List (String × Value))

/-- A reader takes what it reads off the front of a text and returns the rest. -/
abbrev Reader (α : Type) := List Char → Option (α × List Char)

def isBlank (c : Char) : Bool := c = ' ' || c = '\t'

/-- Characters that may stand within a line: everything but control characters other than tabs. -/
def isLineChar (c : Char) : Bool := c = '\t' || (0x20 ≤ c.toNat && c.toNat ≠ 0x7f)

def skipBlanks (s : List Char) : List Char := s.dropWhile isBlank

def newline? : List Char → Option (List Char)
  | '\n' :: rest => some rest
  | '\r' :: '\n' :: rest => some rest
  | _ => none

def skipComment : List Char → List Char
  | '#' :: rest => rest.dropWhile isLineChar
  | s => s

/-- What may follow on a line that is complete: a comment, and then its end or that of the text. -/
def lineEnd? (s : List Char) : Option (List Char) :=
  match skipComment (skipBlanks s) with
  | [] => some []
  | rest => newline? rest

end KeyedBlocks.Toml
