import KeyedBlocks.Toml.Number
import KeyedBlocks.Toml.Tree

/-!
TOML documents: lines that hold a key with its value, a header, a comment or nothing. Arrays may
run over several lines and end in a comma; tables written inline may not.
-/
namespace KeyedBlocks.Toml

/-- Pass over blanks, line ends and comments, at most `fuel` of them. -/
def skipSpace : Nat → List Char → List Char
  | 0, s => s
  | fuel + 1, s =>
      match s with
      | ' ' :: rest | '\t' :: rest => skipSpace fuel rest
      | '#' :: _ =>
          match newline? (skipComment s) with
          | some rest => skipSpace fuel rest
          | none => s
      | _ =>
          match newline? s with
          | some rest => skipSpace fuel rest
          | none => s

def skipSpaces (s : List Char) : List Char := skipSpace s.length s

/-- The items of an array and its closing bracket; a comma may stand before that. -/
def items (item : Reader Value) : Nat → Reader (List Value)
  | 0, _ => none
  | fuel + 1, s =>
      match skipSpaces s with
      | ']' :: rest => some ([], rest)
      | s => do
          let (first, rest) ← item s
          match skipSpaces rest with
          | ',' :: rest => do
              let (more, rest) ← items item fuel rest
              return (first :: more, rest)
          | ']' :: rest => return ([first], rest)
          | _ => none

def assignment (value : Reader Value) : Reader (List String × Value) := fun s => do
  let (path, rest) ← key s
  match rest with
  | '=' :: rest => do
      let (v, rest) ← value (skipBlanks rest)
      return ((path, v), rest)
  | _ => none

/-- The assignments of an inline table and its closing brace. -/
def assignments (value : Reader Value) : Nat → Reader (List (List String × Value))
  | 0, _ => none
  | fuel + 1, s => do
      let (first, rest) ← assignment value s
      match skipBlanks rest with
      | ',' :: rest => do
          let (more, rest) ← assignments value fuel rest
          return (first :: more, rest)
      | '\x7d' :: rest => return ([first], rest)
      | _ => none

def assignAll (tree : Tree) (pairs : List (List String × Value)) : Option Tree :=
  pairs.foldlM
    (fun tree pair => do
      let (path, name) ← Tree.splitLast pair.1
      tree.assign path name pair.2)
    tree

/-- A value in which no other lies deeper than `depth`. -/
def value : Nat → Reader Value
  | depth, s =>
      match s with
      | '"' :: _ | '\'' :: _ => (text s).map fun read => (.text read.1, read.2)
      | '[' :: rest =>
          match depth with
          | 0 => none
          | depth + 1 =>
              (items (value depth) (rest.length + 1) rest).map fun read => (.array read.1, read.2)
      | '\x7b' :: rest =>
          match depth with
          | 0 => none
          | depth + 1 =>
              match skipBlanks rest with
              | '\x7d' :: rest => some (.table [], rest)
              | rest => do
                  let (pairs, rest) ← assignments (value depth) (rest.length + 1) rest
                  let tree ← assignAll .empty pairs
                  return (tree.toValue, rest)
      | _ => scalar s

/-- A document so far, and the table that the next assignment goes into. -/
structure Draft where
  root : Tree
  current : List String

/-- A header: its brackets, and the table that it opens. -/
def header (draft : Draft) (s : List Char) : Option (Draft × List Char) :=
  match s with
  | '[' :: '[' :: rest => do
      let (path, rest) ← key rest
      let (parent, name) ← Tree.splitLast path
      match rest with
      | ']' :: ']' :: rest => return (⟨← draft.root.addTable parent name, path⟩, rest)
      | _ => none
  | '[' :: rest => do
      let (path, rest) ← key rest
      let (parent, name) ← Tree.splitLast path
      match rest with
      | ']' :: rest => return (⟨← draft.root.openTable parent name, path⟩, rest)
      | _ => none
  | _ => none

def entry (draft : Draft) (s : List Char) : Option (Draft × List Char) := do
  let ((path, v), rest) ← assignment (value depthLimit) s
  let (path, name) ← Tree.splitLast path
  let root ← draft.root.descend .implied (Tree.assign path name v) draft.current
  return ({ draft with root }, rest)

def lines : Nat → Draft → List Char → Option Draft
  | 0, _, _ => none
  | fuel + 1, draft, s => do
      let (draft, rest) ←
        match skipBlanks s with
        | '[' :: rest => header draft ('[' :: rest)
        | [] => some (draft, [])
        | c :: rest =>
            if c = '#' || c = '\n' || c = '\r' then some (draft, c :: rest)
            else entry draft (c :: rest)
      match ← lineEnd? rest with
      | [] => return draft
      | rest => lines fuel draft rest

def skipOrderMark : List Char → List Char
  | '\ufeff' :: rest => rest
  | s => s

def parse? (document : String) : Option Value :=
  let s := skipOrderMark document.toList
  (lines (s.length + 1) ⟨.empty, []⟩ s).map fun draft => draft.root.toValue

end KeyedBlocks.Toml
