import KeyedBlocks.Config
import KeyedBlocks.Handle
import KeyedBlocks.Relational.Basic
import KeyedBlocks.Relational.Cursor

/-!
A database over relational tables. Its blocks are filed under datastore names, and the table of
preimages gives it iteration over the raw keys in order.
-/
namespace KeyedBlocks

/-- A key that a cursor came to, and its value if that was asked for. -/
structure Visit where
  key : Bytes
  value : Option (Except StoreError Bytes)

structure SqlDatabase where
  config : SqlConfig
  deriving DecidableEq, Repr

namespace SqlDatabase

def create (config : SqlConfig) : Except StoreError SqlDatabase := do
  config.check
  return ⟨config⟩

def handle (d : SqlDatabase) : Handle := ⟨.keccakBlockstore, d.config.store.batchCapacity⟩

/-- Iterate over the keys that begin with `stem`, from `stem` and `start` on. -/
def iterate (d : SqlDatabase) (stem start : Bytes) : Cursor :=
  Cursor.create stem start d.config.pageSize

/-- The value at a cursor, read past the cache. -/
def valueAt (d : SqlDatabase) (tables : Relational) (c : Cursor) :
    Cursor × Except StoreError Bytes :=
  c.value d.handle.scheme tables.read

def nextKey (tables : Relational) (c : Cursor) : Cursor × Bool := c.next tables.scan

def valueIf (d : SqlDatabase) (tables : Relational) (values : Bool) (c : Cursor) :
    Cursor × Option (Except StoreError Bytes) :=
  if values then
    let (c, value) := d.valueAt tables c
    (c, some value)
  else (c, none)

/-- Step a cursor up to `limit` times and look at each key, while nothing else happens. -/
def walk (d : SqlDatabase) (tables : Relational) (values : Bool) :
    Nat → Cursor → Cursor × List Visit
  | 0, c => (c, [])
  | limit + 1, c =>
      match nextKey tables c with
      | (c, false) => (c, [])
      | (c, true) =>
          let (after, value) := d.valueIf tables values c
          let (last, visits) := walk d tables values limit after
          (last, ⟨c.key?.getD [], value⟩ :: visits)

/-- Properties of the pool that cannot be told. -/
def untold : List String := ["maxidleclosed", "maxlifetimeclosed", "waitcount", "waitduration"]

/-- A property of the pool or of the tables, in letters of either case, or one of the cache. -/
def stat (s : Site Relational) (property : String) : Except StoreError String :=
  let pool := s.backend.pool
  let lower := property.map Char.toLower
  if lower = "size" then s.backend.size.map toString
  else if lower = "idle" then .ok (toString pool.idle)
  else if lower = "inuse" then .ok (toString pool.inUse)
  else if lower = "openconnections" then .ok (toString pool.opened)
  else if lower = "maxopenconnections" then .ok (toString pool.max)
  else if lower ∈ untold then .error (.unsupported lower)
  else
    match s.cache.stats.property? property with
    | some value => .ok value
    | none => .error (unknownProperty property)

def debugText (tables : Relational) : String :=
  "SqlDatabase \x7b backend: " ++ Quoted.text Relational.name ++ ", pool: " ++
    tables.pool.debugText ++ " \x7d"

end SqlDatabase

end KeyedBlocks
