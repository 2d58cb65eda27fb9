import KeyedBlocks.Address.Scheme
import KeyedBlocks.Assoc
import KeyedBlocks.Error
import KeyedBlocks.Relational.KeyOrder

/-!
The two tables of a relational database, the statements that change them, and transactions. The
table of blocks holds values under their addresses; the table of preimages holds, for every raw
key, the address that it was put to. A transaction takes all its statements or none.
-/
namespace KeyedBlocks

/-- The table of preimages, which somebody else may have made with other columns. -/
inductive PreimageTable
  | missing
  | foreign
  | rows (entries : List (Bytes × Address))
  deriving DecidableEq, Repr

structure Tables where
  blocks : Option (List (Address × Bytes))
  preimages : PreimageTable
  deriving DecidableEq, Repr

/-- Values that the table of blocks refuses to take in, or to give up. -/
structure Guards where
  insertion : Option Bytes := none
  deletion : Option Bytes := none
  deriving DecidableEq, Repr

inductive Statement
  | upsertBlock (a : Address) (value : Bytes)
  | upsertPreimage (key : Bytes) (a : Address)
  | deletePreimage (key : Bytes)
  /-- Drop every alias of a block, so that no other key still leads to it. -/
  | deletePreimagesOf (a : Address)
  | deleteBlock (a : Address)
  deriving DecidableEq, Repr

def noSuchTable (name : String) : Fault := .refused 1 ("no such table: " ++ name)

def noSuchColumn : Fault := .refused 1 "no such column: original_key"

def noColumnNamed : Fault := .refused 1 "table preimages has no column named original_key"

def guarded : Fault := .refused 1811 "poisoned block"

def readOnlyDatabase : Fault := .refused 8 "attempt to write a readonly database"

namespace Tables

def empty : Tables := ⟨some [], .rows []⟩

def absent : Tables := ⟨none, .missing⟩

def blockRows (t : Tables) : Except Fault (List (Address × Bytes)) :=
  match t.blocks with
  | some rows => .ok rows
  | none => .error (noSuchTable "blocks")

/-- The rows of the preimages, for a statement that fails with `foreign` on columns not its own. -/
def preimageRows (t : Tables) (foreign : Fault) : Except Fault (List (Bytes × Address)) :=
  match t.preimages with
  | .rows entries => .ok entries
  | .missing => .error (noSuchTable "preimages")
  | .foreign => .error foreign

def migrate (t : Tables) : Tables :=
  { blocks := some (t.blocks.getD [])
    preimages :=
      match t.preimages with
      | .missing => .rows []
      | table => table }

def isIncomplete (t : Tables) : Bool := t.blocks.isNone || t.preimages = .missing

def has (t : Tables) (a : Address) : Except Fault Bool := do
  let rows ← t.blockRows
  return Assoc.contains a rows

def read (t : Tables) (a : Address) : Except Fault (Option Bytes) := do
  let rows ← t.blockRows
  return Assoc.find? a rows

def exec (guards : Guards) (t : Tables) : Statement → Except Fault Tables
  | .upsertBlock a value => do
      let rows ← t.blockRows
      if guards.insertion = some value then .error guarded
      else return { t with blocks := some (Assoc.insert a value rows) }
  | .upsertPreimage key a => do
      let rows ← t.preimageRows noColumnNamed
      return { t with preimages := .rows (Assoc.insert key a rows) }
  | .deletePreimage key => do
      let rows ← t.preimageRows noSuchColumn
      return { t with preimages := .rows (Assoc.erase key rows) }
  | .deletePreimagesOf a =>
      match t.preimages with
      | .rows entries =>
          .ok { t with preimages := .rows (entries.filter fun row => row.2 ≠ a) }
      | .foreign => .ok t
      | .missing => .error (noSuchTable "preimages")
  | .deleteBlock a => do
      let rows ← t.blockRows
      match guards.deletion, Assoc.find? a rows with
      | some guard, some value =>
          if guard = value then .error guarded
          else return { t with blocks := some (Assoc.erase a rows) }
      | _, _ => return { t with blocks := some (Assoc.erase a rows) }

/-- Carry out statements in order; the first fault is that of the whole. -/
def execAll (guards : Guards) (t : Tables) (statements : List Statement) : Except Fault Tables :=
  statements.foldlM (exec guards) t

/-- How tables that are only to be read answer statements: the first of them is looked at and then
refused. -/
def refuse (t : Tables) : List Statement → Except Fault Unit
  | [] => .ok ()
  | statement :: _ => do
      let _ ← exec {} t statement
      .error readOnlyDatabase

/-- At most `limit` keys from `start` on, in the order of their bytes. A limit is taken as a signed
number of 64 bits, and a negative one is none. -/
def scan (t : Tables) (start : Bytes) (limit : Nat) : Except Fault (List Bytes) := do
  let rows ← t.preimageRows noSuchColumn
  let keys := KeyOrder.sort ((rows.map Prod.fst).filter (start ≤ ·))
  return if limit < Nat.pow 2 63 then keys.take limit else keys

end Tables

def putStatements (key : Bytes) (a : Address) (value : Bytes) : List Statement :=
  [.upsertBlock a value, .upsertPreimage key a]

def deleteStatements (key : Bytes) (a : Address) : List Statement :=
  [.deletePreimage key, .deletePreimagesOf a, .deleteBlock a]

end KeyedBlocks
