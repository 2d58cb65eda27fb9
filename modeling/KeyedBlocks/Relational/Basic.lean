import KeyedBlocks.Backend
import KeyedBlocks.Relational.Tables

/-!
A relational database as a backend: its tables behind a pool of connections. A put, a delete and a
whole batch are one transaction each.
-/
namespace KeyedBlocks

/-- The connections of a pool. -/
structure PoolStats where
  opened : Nat
  idle : Nat
  max : Nat
  deriving DecidableEq, Repr

namespace PoolStats

def inUse (p : PoolStats) : Nat := p.opened - p.idle

def debugText (p : PoolStats) : String :=
  "PoolStats \x7b open: " ++ toString p.opened ++ ", idle: " ++ toString p.idle ++ ", max: " ++
    toString p.max ++ " \x7d"

end PoolStats

structure Relational where
  tables : Tables
  guards : Guards := {}
  /-- Whether statements that write are refused. -/
  readOnly : Bool := false
  isOpen : Bool := true
  /-- How many milliseconds a read takes. -/
  fetchMs : Nat := 0
  maxConnections : Nat
  deriving DecidableEq, Repr

namespace Relational

def name : String := "sqlite"

def pageBytes : Nat := 4096

def fresh (maxConnections : Nat) : Relational :=
  { tables := .empty, maxConnections }

def fail {α : Type} (fault : Fault) : Except StoreError α := .error (.backend name fault)

def lift {α : Type} : Except Fault α → Except StoreError α
  | .ok a => .ok a
  | .error fault => fail fault

/-- Look at the tables, which needs a connection. -/
def query {α : Type} (d : Relational) (look : Tables → Except Fault α) : Except StoreError α :=
  if d.isOpen then lift (look d.tables) else fail .closedPool

/-- Carry out statements as one transaction: all of them, or on a fault none. -/
def transaction (d : Relational) (statements : List Statement) :
    Relational × Except StoreError Unit :=
  if !d.isOpen then (d, fail .closedPool)
  else if d.readOnly then (d, lift (d.tables.refuse statements))
  else
    match d.tables.execAll d.guards statements with
    | .error fault => (d, fail fault)
    | .ok tables => ({ d with tables }, .ok ())

def migrate (d : Relational) : Relational × Except StoreError Unit :=
  if !d.isOpen then (d, fail .closedPool)
  else if d.readOnly && d.tables.isIncomplete then (d, fail readOnlyDatabase)
  else ({ d with tables := d.tables.migrate }, .ok ())

def has (d : Relational) (a : Address) : Except StoreError Bool := d.query (·.has a)

def read (d : Relational) (a : Address) : Except StoreError (Option Bytes) := d.query (·.read a)

def scan (d : Relational) (start : Bytes) (limit : Nat) : Except StoreError (List Bytes) :=
  d.query (·.scan start limit)

def batchStatements (b : Buffer) : List Statement :=
  (b.putList.flatMap fun entry => putStatements entry.1 entry.2.1 entry.2.2) ++
    b.deleteList.flatMap fun entry => deleteStatements entry.1 entry.2

/-- A batch with nothing in it does not reach the database. Otherwise it is one transaction, after
which the cache forgets the addresses that were deleted. -/
def flush (b : Buffer) : List (Effect (List Statement)) :=
  if b.isEmpty then []
  else
    .perform (batchStatements b) :: b.deleteList.map fun entry => .forget entry.2

/-- A read waits for a connection, unless there are none to wait for. -/
def readDelay (d : Relational) : Option Nat := if d.isOpen then some d.fetchMs else none

instance : Backend Relational (List Statement) where
  has d a := (d, d.has a)
  read := read
  readDelay := readDelay
  countReads d _ := d
  perform := transaction
  put := putStatements
  delete := deleteStatements
  flush := flush

/-- Drop the table of blocks, and with it its guards. -/
def dropBlocks (d : Relational) : Relational :=
  { d with tables := { d.tables with blocks := none }, guards := {} }

def dropPreimages (d : Relational) : Relational :=
  { d with tables := { d.tables with preimages := .missing } }

def close (d : Relational) : Relational := { d with isOpen := false }

/-- One connection is open and rests between operations. -/
def pool (d : Relational) : PoolStats :=
  if d.isOpen then ⟨1, 1, d.maxConnections⟩ else ⟨0, 0, d.maxConnections⟩

/-- The bytes of the tables as an estimate in whole pages: one for the schema, one at least for
each table and index, and more as the rows need them. -/
def size (d : Relational) : Except StoreError Nat :=
  d.query fun t =>
    let blocks := (t.blocks.getD []).foldl
      (fun size (a, value) => size + 2 * a.text.length + value.length) 0
    let keys :=
      match t.preimages with
      | .rows entries =>
          entries.foldl (fun size (key, a) => size + 2 * (key.length + a.text.length)) 0
      | _ => 0
    .ok ((6 + (blocks + keys) / pageBytes) * pageBytes)

end Relational

end KeyedBlocks
