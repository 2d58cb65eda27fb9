import KeyedBlocks.Backend
import KeyedBlocks.Blocks.Store

/-!
A block service as a backend. Blocks are filed under content identifiers and nothing is known of
the keys. A batch is one call that adds all its puts, and then one removal for each delete.
-/
namespace KeyedBlocks

/-- A service that may lack a call for whole batches; it then stores block by block, and has
nothing to close. -/
structure BlockService where
  store : BlockStore
  batches : Bool := true
  deriving DecidableEq, Repr

inductive BlockWrite
  | store (a : Address) (value : Bytes)
  | storeAll (blocks : List (Address × Bytes))
  | remove (a : Address)
  deriving DecidableEq, Repr

namespace BlockService

def storeAll (s : BlockService) (blocks : List (Address × Bytes)) :
    BlockStore × Except StoreError Unit :=
  if s.batches then s.store.storeBatch blocks else s.store.storeEach blocks

def perform (s : BlockService) : BlockWrite → BlockService × Except StoreError Unit
  | .store a value =>
      let (store, result) := s.store.store a value
      ({ s with store }, result)
  | .storeAll blocks =>
      let (store, result) := s.storeAll blocks
      ({ s with store }, result)
  | .remove a =>
      let (store, result) := s.store.remove a
      ({ s with store }, result.map fun _ => ())

def flush (b : Buffer) : List (Effect BlockWrite) :=
  let blocks := b.putList.map Prod.snd
  (if blocks.isEmpty then [] else [.perform (.storeAll blocks)]) ++
    b.deleteList.flatMap fun entry => [.perform (.remove entry.2), .forget entry.2]

/-- A fetch without latency, or with none to speak of, is answered at once. -/
def readDelay (s : BlockService) : Option Nat :=
  (s.store.latency.filter (0 < ·)).map (min · Duration.longestWait)

def close (s : BlockService) : Except StoreError Unit :=
  if s.batches then s.store.close else .ok ()

instance : Backend BlockService BlockWrite where
  has s a :=
    let (store, result) := s.store.has a
    ({ s with store }, result)
  read s a := s.store.read a
  readDelay := readDelay
  countReads s n := { s with store := s.store.countFetches n }
  perform := perform
  put _ a value := .store a value
  delete _ a := .remove a
  flush := flush

end BlockService

end KeyedBlocks
