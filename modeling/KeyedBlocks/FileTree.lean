import KeyedBlocks.Files
import KeyedBlocks.Text.Parts

/-!
A tree of files as a value, on which commands can be run one after another without a disk. A text
file is found by walking down from directory to directory. The path of a database is made plain
first: steps up take back what was stepped into, even what is not there.
-/
namespace KeyedBlocks

inductive FileContent
  | text (content : String)
  | tables (t : Tables)
  deriving DecidableEq, Repr

inductive FileNode
  | directory
  | file (content : FileContent)
  deriving DecidableEq, Repr

/-- A file or directory by the names that lead to it from the root. -/
abbrev TreePath := List String

/-- The bytes of a path when it is written with a slash before every name. -/
def TreePath.size (path : TreePath) : Nat :=
  path.foldl (fun size name => size + name.utf8ByteSize + 1) 0

structure FileTree where
  nodes : List (TreePath × FileNode)
  /-- Where paths begin that do not begin at the root. -/
  home : TreePath
  deriving DecidableEq, Repr

namespace FileTree

def nameLimit : Nat := 255

/-- Fewer bytes than these make up a path. -/
def pathLimit : Nat := 4096

/-- The most bytes that the path of a database may have while it is made plain. -/
def plainPathLimit : Nat := 511

/-- The most bytes that the path of a database may have, so that its journal can be named. -/
def databasePathLimit : Nat := 504

def isTooLong (name : String) : Bool := nameLimit < name.utf8ByteSize

/-- The root is always there. -/
def node? (t : FileTree) (path : TreePath) : Option FileNode :=
  if path.isEmpty then some .directory else Assoc.find? path t.nodes

def isDirectory (t : FileTree) (path : TreePath) : Bool := t.node? path = some .directory

/-- The place that a path begins at, and the names in it. -/
def names (t : FileTree) (path : String) : TreePath × List String :=
  (if path.toList.head? = some '/' then [] else t.home,
    (Parts.splitAt '/' path.toList).map String.ofList)

/-- Walk on by names; every one of them is looked up in a directory. -/
def walk (t : FileTree) (here : TreePath) : List String → Except FileError TreePath
  | [] => .ok here
  | name :: rest =>
      if !t.isDirectory here then .error .notDirectory
      else if name = "" ∨ name = "." then t.walk here rest
      else if name = ".." then t.walk here.dropLast rest
      else if isTooLong name then .error .nameTooLong
      else if (t.node? (here ++ [name])).isSome then t.walk (here ++ [name]) rest
      else .error .missing

def find (t : FileTree) (path : String) : Except FileError FileNode := do
  if '\x00' ∈ path.toList then throw .badPath
  if pathLimit ≤ path.utf8ByteSize then throw .nameTooLong
  if path = "" then throw .missing
  let (start, names) := t.names path
  match t.node? (← t.walk start names) with
  | some node => return node
  | none => throw .missing

def readText (t : FileTree) (path : String) : Except FileError String := do
  match ← t.find path with
  | .file (.text content) => return content
  | .file (.tables _) => throw .notText
  | .directory => throw .isDirectory

/-- Step to a name in a directory, which need not be there; but in a file there is nothing. -/
def stepTo? (t : FileTree) (here : TreePath) (name : String) : Option TreePath :=
  let next := here ++ [name]
  if plainPathLimit < next.size then none
  else
    match t.node? here with
    | some .directory => if isTooLong name then none else some next
    | some (.file _) => none
    | none => some next

/-- Follow names to a place that is not the root. -/
def follow? (t : FileTree) (here : TreePath) : List String → Option TreePath
  | [] => if here.isEmpty || databasePathLimit < here.size then none else some here
  | name :: rest =>
      if name = "" ∨ name = "." then t.follow? here rest
      else if name = ".." then t.follow? here.dropLast rest
      else (t.stepTo? here name).bind fun next => t.follow? next rest

def databasePath? (t : FileTree) (path : String) : Option TreePath :=
  let (start, names) := t.names path
  t.follow? start names

/-- The file beside another whose name is longer by `ending`. -/
def beside (path : TreePath) (ending : String) : TreePath :=
  path.dropLast ++ [path.getLast?.getD "" ++ ending]

def journalEnding : String := "-journal"
def logEnding : String := "-wal"
def lockEnding : String := ".lock"

/-- A file of one byte counts as one of none. -/
def databaseAt (t : FileTree) (path : TreePath) : DatabaseFile :=
  if !t.isDirectory path.dropLast then .unreachable
  else
    match t.node? path with
    | none => .missing
    | some .directory => .directory
    | some (.file (.tables tables)) => .tables tables
    | some (.file (.text content)) =>
        if content.utf8ByteSize ≤ 1 then .tables .absent else .foreign

/-- A journal that is done with begins with a zero. -/
def journalAt (t : FileTree) (path : TreePath) : Journal :=
  match t.node? (beside path journalEnding) with
  | none => .absent
  | some (.file (.text content)) =>
      match content.toList with
      | [] => .absent
      | c :: _ => if c = '\x00' then .finished else .unfinished
  | some _ => .unfinished

/-- A log of no length counts as none. -/
def hasLogAt (t : FileTree) (path : TreePath) : Bool :=
  match t.node? (beside path logEnding) with
  | none => false
  | some node => node ≠ .file (.text "")

def lockAt (t : FileTree) (path : TreePath) : LockFile :=
  let file := beside path lockEnding
  if isTooLong (file.getLast?.getD "") then .unnamable
  else if (t.node? file).isSome then .taken
  else .free

def write (t : FileTree) (path : TreePath) (node : FileNode) : FileTree :=
  { t with nodes := Assoc.insert path node t.nodes }

def remove (t : FileTree) (path : TreePath) : FileTree :=
  { t with nodes := Assoc.erase path t.nodes }

def emptyFile : FileNode := .file (.text "")

def findDatabase (t : FileTree) (path : String) : DatabaseFiles :=
  match t.databasePath? path with
  | none => { main := .unnamable }
  | some place =>
      { main := t.databaseAt place
        journal := t.journalAt place
        hasLog := t.hasLogAt place
        lock := t.lockAt place
        canJournal := !isTooLong ((beside place journalEnding).getLast?.getD "")
        canReopen :=
          (t.node? place).isSome || ((t.write place emptyFile).databasePath? path).isSome }

def files (t : FileTree) : Files :=
  ⟨t.readText, t.findDatabase, fun path => (t.find path).isOk⟩

def change (t : FileTree) (place : TreePath) : FileChange → FileTree
  | .create _ => t.write place emptyFile
  | .save _ tables =>
      (t.write place (.file (.tables tables))).remove (beside place journalEnding)
  | .dropJournal _ => t.remove (beside place journalEnding)
  | .dropLog _ => t.remove (beside place logEnding)

/-- Make changes. All paths lead to where they led before the first of them. -/
def apply (t : FileTree) (changes : List FileChange) : FileTree :=
  changes.foldl
    (fun changed c =>
      match t.databasePath? c.path with
      | some place => changed.change place c
      | none => changed)
    t

end FileTree

end KeyedBlocks
