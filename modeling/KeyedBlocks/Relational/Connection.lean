import KeyedBlocks.Files
import KeyedBlocks.Relational.Database
import KeyedBlocks.Relational.ServerUrl
import KeyedBlocks.Relational.Target

/-!
Connections to the databases that settings name. A file is opened, the first statement looks into
it and clears away what an earlier connection left beside it, and the tables that are missing are
made. After that the tables belong to the connection until they are put back in their file.
-/
namespace KeyedBlocks

structure Connection where
  database : Relational
  /-- The file that keeps the tables, if one does, and the tables that it held in the beginning. -/
  file : Option (String × Tables)
  deriving DecidableEq, Repr

namespace Connection

def cannotOpen : Fault := .refused 14 "unable to open database file"

def notDatabase : Fault := .refused 26 "file is not a database"

def cannotRead : Fault := .refused 266 "disk I/O error"

def noPattern : Fault := .refused 1802 "disk I/O error"

def locked : Fault := .refused 5 "database is locked"

def cannotLock : Fault := .refused 3850 "disk I/O error"

/-- A transaction cannot be taken back in a file that is only to be read. -/
def cannotTakeBack : Fault := .refused 776 "attempt to write a readonly database"

def memoryNameLimit : Nat := 1016

def longestBusyWait : Nat := Nat.pow 2 31 - 1

/-! Opening a file -/

def openFile (files : Files) (t : Target) (f : DatabaseFiles) :
    Except Fault (List FileChange) := do
  if f.main = .unnamable then throw cannotOpen
  if let some path := t.pattern then
    if !files.present path then throw noPattern
  match f.main with
  | .unnamable | .unreachable => throw cannotOpen
  | .directory => if t.permission = .read then return [] else throw cannotOpen
  | .missing => if t.permission = .create then return [.create t.path] else throw cannotOpen
  | _ => return []

def contents (f : DatabaseFiles) : Except Fault Tables :=
  match f.main with
  | .tables t => .ok t
  | .missing => .ok .absent
  | .foreign => .error notDatabase
  | .directory => .error cannotRead
  | .unnamable | .unreachable => .error cannotOpen

/-! Clearing away -/

/-- Whether other connections are kept out by a file that stands for a lock. -/
def usesLockFile (t : Target) : Bool := t.access = "unix-dotfile" && !t.lockless

def checkLock (t : Target) (f : DatabaseFiles) : Except Fault Unit :=
  if !usesLockFile t then .ok ()
  else
    match f.lock with
    | .free => .ok ()
    | .taken => .error locked
    | .unnamable => .error cannotLock

/-- Whether the log of changes can be used, for which connections have to share memory. -/
def canUseLog (t : Target) : Bool :=
  (t.access = "unix" || t.access = "unix-excl") && !t.lockless

/-- See to the journal. One beside an empty file belongs to no transaction; an unfinished one tells
what to take back, but a lock that is there as a file looks like a transaction going on. -/
def clearJournal (t : Target) (f : DatabaseFiles) : Except Fault (List FileChange) :=
  let canLock := t.permission ≠ .read || t.lockless || t.access = "unix-none"
  if f.journal = .absent then .ok []
  else if f.isEmpty then .ok (if canLock then [.dropJournal t.path] else [])
  else if f.journal = .finished || usesLockFile t then .ok []
  else if t.permission = .read then .error cannotTakeBack
  else .ok [.dropJournal t.path]

/-- See to the log, whose changes go into the file when the connection is closed. -/
def clearLog (t : Target) (f : DatabaseFiles) : Except Fault (List FileChange) :=
  if !f.hasLog then .ok []
  else if f.isEmpty then .ok [.dropLog t.path]
  else if !canUseLog t then .error cannotOpen
  else .ok (if t.permission = .read then [] else [.dropLog t.path])

/-- The first look into a file. What is beyond change has nothing beside it. -/
def look (t : Target) (f : DatabaseFiles) : List FileChange × Except Fault Tables :=
  if t.immutable then ([], contents f)
  else
    match checkLock t f, clearJournal t f, clearLog t f with
    | .error fault, _, _ => ([], .error fault)
    | _, .error fault, _ => ([], .error fault)
    | _, .ok journal, .error fault => (journal, .error fault)
    | _, .ok journal, .ok log => (journal ++ log, contents f)

/-! Connecting -/

def checkBusyWait (config : SqlConfig) : Except Fault Unit :=
  if config.statementTimeoutMs.getD 0 ≤ longestBusyWait then .ok () else .error .brokenConnection

def ofTables (config : SqlConfig) (t : Target) (tables : Tables) : Connection :=
  { database := { tables, readOnly := t.isReadOnly, maxConnections := config.maxConnections }
    file := if t.isOnDisk then some (t.path, tables) else none }

/-- Make the tables that are missing. Connections take turns at this, so where each has tables of
its own the second makes the table that the first then lacks. -/
def migrate (c : Connection) (t : Target) : Except Fault Connection :=
  let d := c.database
  if !d.tables.isIncomplete then .ok c
  else if d.readOnly then .error readOnlyDatabase
  else if !t.isCommon && 1 < d.maxConnections then .error (noSuchTable "main.preimages")
  else .ok { c with database := { d with tables := d.tables.migrate } }

/-- Make the tables that are missing in a file, for which it has to have a journal. The second
connection finds the file only if its path still leads there. -/
def migrateFile (c : Connection) (t : Target) (f : DatabaseFiles) :
    List FileChange × Except Fault Connection :=
  let d := c.database
  if !d.tables.isIncomplete || d.readOnly then ([], migrate c t)
  else if !f.canJournal then ([], .error cannotOpen)
  else if !f.canReopen && 1 < d.maxConnections then
    ([.save t.path { d.tables with blocks := some (d.tables.blocks.getD []) }], .error cannotOpen)
  else ([], migrate c t)

def inMemory (config : SqlConfig) (t : Target) : Except Fault Connection := do
  if t.hasFile && memoryNameLimit < t.path.utf8ByteSize then throw cannotOpen
  checkBusyWait config
  migrate (ofTables config t .absent) t

def onDisk (files : Files) (config : SqlConfig) (t : Target) :
    List FileChange × Except Fault Connection :=
  let f := files.database t.path
  match openFile files t f with
  | .error fault => ([], .error fault)
  | .ok opened =>
      match checkBusyWait config with
      | .error fault => (opened, .error fault)
      | .ok _ =>
          match look t f with
          | (cleared, .error fault) => (opened ++ cleared, .error fault)
          | (cleared, .ok tables) =>
              let (made, c) := migrateFile (ofTables config t tables) t f
              (opened ++ cleared ++ made, c)

def toTarget (files : Files) (config : SqlConfig) (t : Target) :
    List FileChange × Except Fault Connection :=
  if t.isOnDisk then onDisk files config t else ([], inMemory config t)

def target (config : SqlConfig) : Except Fault Target := do
  Target.ofLocation (← Location.ofUrl config.url)

def connect (files : Files) (config : SqlConfig) :
    List FileChange × Except StoreError (SqlDatabase × Connection) :=
  match SqlDatabase.create config with
  | .error e => ([], .error e)
  | .ok d =>
      if config.isPostgres then ([], .error (.backend "postgres" (ServerUrl.fault config.url)))
      else
        match target config with
        | .error fault => ([], Relational.fail fault)
        | .ok t =>
            let (changes, c) := toTarget files config t
            (changes, Relational.lift (c.map fun c => (d, c)))

/-- What becomes of the files when a connection is closed. -/
def changes (c : Connection) (tables : Tables) : List FileChange :=
  match c.file with
  | some (path, found) => if tables = found then [] else [.save path tables]
  | none => []

end Connection

end KeyedBlocks
