import KeyedBlocks.Address.Scheme
import KeyedBlocks.Assoc
import KeyedBlocks.Error
import KeyedBlocks.Steps

/-!
A block store in memory. It counts the calls made to it, and can be told to be slow, to be offline
and to fail, everywhere or at chosen addresses. A batch of blocks is checked as a whole before any
of it is stored; storing block by block is kept beside that for services which know no batches.
-/
namespace KeyedBlocks

structure CallCounts where
  fetches : Nat := 0
  probes : Nat := 0
  stores : Nat := 0
  removes : Nat := 0
  batches : Nat := 0
  deriving DecidableEq, Repr

structure Faults where
  /-- The text of the fault that every call meets. -/
  everywhere : Option String := none
  addresses : List Address := []
  deriving DecidableEq, Repr

structure BlockStore where
  blocks : List (Address × Bytes) := []
  calls : CallCounts := {}
  /-- How many milliseconds a fetch takes. -/
  latency : Option Nat := none
  faults : Faults := {}
  online : Bool := true
  deriving DecidableEq, Repr

def memoryFault (detail : String) : StoreError := .backend "memory" (.injected detail)

def Faults.check (f : Faults) (a : Address) : Except StoreError Unit :=
  match f.everywhere with
  | some detail => .error (memoryFault detail)
  | none => if a ∈ f.addresses then .error (memoryFault ("address " ++ a.text)) else .ok ()

namespace BlockStore

def peek (s : BlockStore) (a : Address) : Option Bytes := Assoc.find? a s.blocks

def size (s : BlockStore) : Nat := s.blocks.length

def isEmpty (s : BlockStore) : Bool := s.blocks.isEmpty

/-- What a fetch finds when it ends. -/
def read (s : BlockStore) (a : Address) : Except StoreError (Option Bytes) := do
  s.faults.check a
  return s.peek a

/-- Count fetches, which begin before they can fail. -/
def countFetches (s : BlockStore) (n : Nat) : BlockStore :=
  { s with calls := { s.calls with fetches := s.calls.fetches + n } }

def has (s : BlockStore) (a : Address) : BlockStore × Except StoreError Bool :=
  ({ s with calls := { s.calls with probes := s.calls.probes + 1 } }, do
    s.faults.check a
    return (s.peek a).isSome)

def store (s : BlockStore) (a : Address) (value : Bytes) : BlockStore × Except StoreError Unit :=
  let counted := { s with calls := { s.calls with stores := s.calls.stores + 1 } }
  match s.faults.check a with
  | .error e => (counted, .error e)
  | .ok _ => ({ counted with blocks := Assoc.insert a value s.blocks }, .ok ())

/-- Remove a block; whether there was one. -/
def remove (s : BlockStore) (a : Address) : BlockStore × Except StoreError Bool :=
  let counted := { s with calls := { s.calls with removes := s.calls.removes + 1 } }
  match s.faults.check a with
  | .error e => (counted, .error e)
  | .ok _ => ({ counted with blocks := Assoc.erase a s.blocks }, .ok (s.peek a).isSome)

def checkAll (f : Faults) : List (Address × Bytes) → Except StoreError Unit
  | [] => .ok ()
  | (a, _) :: rest => do
      f.check a
      checkAll f rest

/-- Store all blocks or none. -/
def storeBatch (s : BlockStore) (blocks : List (Address × Bytes)) :
    BlockStore × Except StoreError Unit :=
  let counted := { s with calls := { s.calls with batches := s.calls.batches + 1 } }
  match checkAll s.faults blocks with
  | .error e => (counted, .error e)
  | .ok _ =>
      ({ counted with
          blocks := blocks.foldl (fun all block => Assoc.insert block.1 block.2 all) s.blocks },
        .ok ())

/-- Store the blocks one by one, up to the first that fails. -/
def storeEach (s : BlockStore) (blocks : List (Address × Bytes)) :
    BlockStore × Except StoreError Unit :=
  runSteps (fun s block => s.store block.1 block.2) s blocks

/-- Closing fails only when every call does. -/
def close (s : BlockStore) : Except StoreError Unit :=
  match s.faults.everywhere with
  | some detail => .error (memoryFault detail)
  | none => .ok ()

def debugText (s : BlockStore) : String :=
  "InMemoryBlockStore \x7b block_count: " ++ toString s.size ++ ", online: " ++
    toString s.online ++ " \x7d"

end BlockStore

end KeyedBlocks
