import KeyedBlocks.Toml.Value

/-!
TOML texts: in double quotes with escapes, in single quotes without, and both over several lines
in three quotes. One or two quotes may stand before the three that close a text.
-/
namespace KeyedBlocks.Toml

def hexValue? (c : Char) : Option Nat :=
  if '0' ≤ c ∧ c ≤ '9' then some (c.toNat - 48)
  else if 'a' ≤ c ∧ c ≤ 'f' then some (c.toNat - 87)
  else if 'A' ≤ c ∧ c ≤ 'F' then some (c.toNat - 55)
  else none

def scalar? (digits : List Char) : Option Char := do
  let values ← digits.mapM hexValue?
  let n := values.foldl (fun n d => 16 * n + d) 0
  if n.isValidChar then some (Char.ofNat n) else none

def escaped? (c : Char) : Option Char :=
  match c with
  | 'b' => some '\x08'
  | 't' => some '\t'
  | 'n' => some '\n'
  | 'f' => some '\x0c'
  | 'r' => some '\r'
  | '"' => some '"'
  | '\\' => some '\\'
  | _ => none

def prepend (c : Char) : Option (List Char × List Char) → Option (List Char × List Char) :=
  Option.map fun read => (c :: read.1, read.2)

/-- A text in double quotes, after the opening one. -/
def basicText : Reader (List Char)
  | [] => none
  | '"' :: rest => some ([], rest)
  | '\\' :: 'u' :: a :: b :: c :: d :: rest => do
      let x ← scalar? [a, b, c, d]
      prepend x (basicText rest)
  | '\\' :: 'U' :: a :: b :: c :: d :: e :: f :: g :: h :: rest => do
      let x ← scalar? [a, b, c, d, e, f, g, h]
      prepend x (basicText rest)
  | '\\' :: c :: rest => do
      let x ← escaped? c
      prepend x (basicText rest)
  | c :: rest => if c ≠ '\\' && isLineChar c then prepend c (basicText rest) else none

/-- A text in single quotes, after the opening one. -/
def literalText : Reader (List Char)
  | [] => none
  | '\'' :: rest => some ([], rest)
  | c :: rest => if isLineChar c then prepend c (literalText rest) else none

/-- Where a text of several lines stands: in its body, on a line that a backslash ends, or in the
blanks after such a line. -/
inductive Fold
  | body
  | line
  | blanks

/-- A text in three double quotes, after the opening ones. -/
def longBasicText : Fold → Reader (List Char)
  | _, [] => none
  | .line, ' ' :: rest => longBasicText .line rest
  | .line, '\t' :: rest => longBasicText .line rest
  | .line, '\n' :: rest => longBasicText .blanks rest
  | .line, '\r' :: '\n' :: rest => longBasicText .blanks rest
  | .line, _ => none
  | .blanks, ' ' :: rest => longBasicText .blanks rest
  | .blanks, '\t' :: rest => longBasicText .blanks rest
  | .blanks, '\n' :: rest => longBasicText .blanks rest
  | .blanks, '\r' :: '\n' :: rest => longBasicText .blanks rest
  | _, '"' :: '"' :: '"' :: '"' :: '"' :: rest => some (['"', '"'], rest)
  | _, '"' :: '"' :: '"' :: '"' :: rest => some (['"'], rest)
  | _, '"' :: '"' :: '"' :: rest => some ([], rest)
  | _, '\\' :: 'u' :: a :: b :: c :: d :: rest => do
      let x ← scalar? [a, b, c, d]
      prepend x (longBasicText .body rest)
  | _, '\\' :: 'U' :: a :: b :: c :: d :: e :: f :: g :: h :: rest => do
      let x ← scalar? [a, b, c, d, e, f, g, h]
      prepend x (longBasicText .body rest)
  | _, '\\' :: '\n' :: rest => longBasicText .blanks rest
  | _, '\\' :: '\r' :: '\n' :: rest => longBasicText .blanks rest
  | _, '\\' :: ' ' :: rest => longBasicText .line rest
  | _, '\\' :: '\t' :: rest => longBasicText .line rest
  | _, '\\' :: c :: rest => do
      let x ← escaped? c
      prepend x (longBasicText .body rest)
  | _, '\n' :: rest => prepend '\n' (longBasicText .body rest)
  | _, '\r' :: '\n' :: rest => prepend '\n' (longBasicText .body rest)
  | _, c :: rest =>
      if c ≠ '\\' && isLineChar c then prepend c (longBasicText .body rest) else none

/-- A text in three single quotes, after the opening ones. -/
def longLiteralText : Reader (List Char)
  | [] => none
  | '\'' :: '\'' :: '\'' :: '\'' :: '\'' :: rest => some (['\'', '\''], rest)
  | '\'' :: '\'' :: '\'' :: '\'' :: rest => some (['\''], rest)
  | '\'' :: '\'' :: '\'' :: rest => some ([], rest)
  | '\n' :: rest => prepend '\n' (longLiteralText rest)
  | '\r' :: '\n' :: rest => prepend '\n' (longLiteralText rest)
  | c :: rest => if isLineChar c then prepend c (longLiteralText rest) else none

def skipNewline (s : List Char) : List Char := (newline? s).getD s

def text : Reader String := fun s =>
  let read :=
    match s with
    | '"' :: '"' :: '"' :: rest => longBasicText .body (skipNewline rest)
    | '"' :: rest => basicText rest
    | '\'' :: '\'' :: '\'' :: rest => longLiteralText (skipNewline rest)
    | '\'' :: rest => literalText rest
    | _ => none
  read.map fun r => (String.ofList r.1, r.2)

def isBare (c : Char) : Bool := c.isAlphanum || c = '_' || c = '-'

/-- One part of a key: a bare word, or a text on one line. -/
def keyPart : Reader String := fun s =>
  let read :=
    match s with
    | '"' :: rest => basicText rest
    | '\'' :: rest => literalText rest
    | _ =>
        let word := s.takeWhile isBare
        if word.isEmpty then none else some (word, s.dropWhile isBare)
  read.map fun r => (String.ofList r.1, r.2)

/-- The parts of a key, of which there are at most `fuel`; blanks may stand around the dots. -/
def keyParts : Nat → Reader (List String)
  | 0, _ => none
  | fuel + 1, s => do
      let (part, rest) ← keyPart (skipBlanks s)
      match skipBlanks rest with
      | '.' :: more => do
          let (parts, rest) ← keyParts fuel more
          return (part :: parts, rest)
      | rest => return ([part], rest)

def depthLimit : Nat := 79

def key : Reader (List String) := keyParts depthLimit

end KeyedBlocks.Toml
