import KeyedBlocks.Relational.Tables

/-!
What a program finds in files: texts, and the tables of databases. Beside the file of a database
there may be others, left by a connection that was not closed, and what a program does to files is
told as a list of changes.
-/
namespace KeyedBlocks

inductive FileError
  | missing
  | notDirectory
  | isDirectory
  | denied
  | nameTooLong
  | notText
  | badPath
  deriving DecidableEq, Repr

def FileError.message : FileError → String
  | .missing => "No such file or directory (os error 2)"
  | .notDirectory => "Not a directory (os error 20)"
  | .isDirectory => "Is a directory (os error 21)"
  | .denied => "Permission denied (os error 13)"
  | .nameTooLong => "File name too long (os error 36)"
  | .notText => "stream did not contain valid UTF-8"
  | .badPath => "file name contained an unexpected NUL byte"

inductive DatabaseFile
  /-- The path is none that a database can have. -/
  | unnamable
  /-- There can be no file, for want of a directory. -/
  | unreachable
  | directory
  /-- There is no file, but there can be one. -/
  | missing
  /-- There is something else. -/
  | foreign
  | tables (t : Tables)
  deriving DecidableEq, Repr

/-- The journal by which an unfinished transaction is taken back. -/
inductive Journal
  /-- There is none that counts; there may be one of no length. -/
  | absent
  /-- It says itself that it is done with. -/
  | finished
  | unfinished
  deriving DecidableEq, Repr

/-- The file that stands for a lock, where locks are made that way. -/
inductive LockFile
  | free
  | taken
  /-- Its name would be too long. -/
  | unnamable
  deriving DecidableEq, Repr

/-- The file of a database and what is beside it. -/
structure DatabaseFiles where
  main : DatabaseFile
  journal : Journal := .absent
  /-- Whether there is a log of changes that are not yet in the file. -/
  hasLog : Bool := false
  lock : LockFile := .free
  /-- Whether the name of the file leaves room for that of its journal. -/
  canJournal : Bool := true
  /-- Whether the path leads to the file even when the file is there. -/
  canReopen : Bool := true
  deriving DecidableEq, Repr

def DatabaseFiles.isEmpty (f : DatabaseFiles) : Bool :=
  match f.main with
  | .missing => true
  | .tables t => t = .absent
  | _ => false

inductive FileChange
  /-- Make a file with nothing in it. -/
  | create (path : String)
  /-- Write the tables, after which there is no journal. -/
  | save (path : String) (t : Tables)
  | dropJournal (path : String)
  | dropLog (path : String)
  deriving DecidableEq, Repr

def FileChange.path : FileChange → String
  | .create path => path
  | .save path _ => path
  | .dropJournal path => path
  | .dropLog path => path

structure Files where
  text : String → Except FileError String
  database : String → DatabaseFiles
  present : String → Bool

end KeyedBlocks
