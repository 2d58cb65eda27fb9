import KeyedBlocks.Blocks.Service
import KeyedBlocks.Handle
import KeyedBlocks.Relational.Basic

/-!
Sequential use of a database, by one caller who holds any number of open batches. A facade is what
the caller can see of a database; a history of calls against it leaves a transcript, which has the
reply to every call and the counters of the cache after it. The time that fetches take is set from
outside, like the clock.
-/
namespace KeyedBlocks

inductive KeyForm
  | typed (key : Key)
  | raw (bytes : Bytes)

namespace KeyForm

/-- Use the entry point that is there for the form of a key. -/
def through {α : Type} (k : KeyForm) (onTyped : Key → α) (onRaw : Bytes → α) : α :=
  match k with
  | typed key => onTyped key
  | raw bytes => onRaw bytes

def key (k : KeyForm) : Except KeyError Key := k.through .ok Key.classify

/-- The raw key, and what its address is derived from. -/
def resolve (k : KeyForm) : Except KeyError (Bytes × AddressSource) := do
  let key ← k.key
  let source ← key.source
  return (key.raw, source)

/-- Act on what a key resolves to. A key that does not resolve leaves the state as it is. -/
def use {σ α : Type} (k : KeyForm) (s : σ)
    (act : Bytes → AddressSource → σ × Except StoreError α) : σ × Except StoreError α :=
  match k.resolve with
  | .ok (bytes, source) => act bytes source
  | .error e => (s, .error (.ofKeyError e))

end KeyForm

/-- A database with states `σ` and batches `β`, as its callers see it. -/
structure Facade (σ β : Type) where
  put : σ → KeyForm → Bytes → σ × Except StoreError Unit
  get : σ → KeyForm → σ × Except StoreError Bytes
  has : σ → KeyForm → σ × Except StoreError Bool
  delete : σ → KeyForm → σ × Except StoreError Unit
  clear : σ → σ
  advance : σ → Nat → σ
  pace : σ → Nat → σ
  counters : σ → CacheStats
  newBatch : Except StoreError β
  batchPut : β → KeyForm → Bytes → β × Except StoreError Unit
  batchDelete : β → KeyForm → β × Except StoreError Unit
  batchSize : β → Nat
  batchReset : β → β
  batchWrite : σ → β → σ × Except StoreError Unit

/-- A site as it is used through a handle, where `pace` changes how long fetches take. -/
def Handle.facade {β ω : Type} [Backend β ω] (h : Handle) (pace : β → Nat → β) :
    Facade (Site β) Buffer where
  put s k value := k.through (fun key => h.put s key value) fun bytes => h.putRaw s bytes value
  get s k := k.through (h.get s) (h.getRaw s)
  has s k := k.through (h.has s) (h.hasRaw s)
  delete s k := k.through (h.delete s) (h.deleteRaw s)
  clear s := { s with cache := s.cache.clear }
  advance s ms := { s with now := s.now + ms }
  pace s ms := { s with backend := pace s.backend ms }
  counters s := s.cache.stats
  newBatch := h.newBatch
  batchPut b k value := k.through (fun key => b.put key value) fun bytes => b.putRaw bytes value
  batchDelete b k := k.through b.delete b.deleteRaw
  batchSize := Buffer.valueSize
  batchReset := Buffer.reset
  batchWrite := Site.flush

namespace Session

/-- One call of a caller. Open batches go by the order in which they were made. -/
inductive Call
  | put (k : KeyForm) (value : Bytes)
  | get (k : KeyForm)
  | has (k : KeyForm)
  | delete (k : KeyForm)
  | clear
  | advance (ms : Nat)
  /-- Fetches take so long from now on. -/
  | pace (ms : Nat)
  | newBatch
  | batchPut (batch : Nat) (k : KeyForm) (value : Bytes)
  | batchDelete (batch : Nat) (k : KeyForm)
  | batchSize (batch : Nat)
  | batchWrite (batch : Nat)
  | batchReset (batch : Nat)

/-- A call that writes is given its key raw. -/
def Call.Untyped : Call → Prop
  | .put k _ | .delete k | .batchPut _ k _ | .batchDelete _ k => ∃ bytes, k = .raw bytes
  | _ => True

def Call.key? : Call → Option KeyForm
  | .put k _ | .get k | .has k | .delete k | .batchPut _ k _ | .batchDelete _ k => some k
  | _ => none

def Call.batch? : Call → Option Nat
  | .batchPut batch .. | .batchDelete batch _ | .batchSize batch | .batchWrite batch
  | .batchReset batch => some batch
  | _ => none

inductive Reply
  | did (result : Except StoreError Unit)
  | got (result : Except StoreError Bytes)
  | found (result : Except StoreError Bool)
  | size (bytes : Nat)
  /-- There is no such batch. -/
  | noBatch

def Reply.error? : Reply → Option StoreError
  | .did (.error e) | .got (.error e) | .found (.error e) => some e
  | _ => none

end Session

/-- A database in use, with the open batches. -/
structure Session (σ β : Type) where
  site : σ
  batches : List β

namespace Session

variable {σ β : Type}

def onBatch (s : Session σ β) (batch : Nat) (change : β → β × Except StoreError Unit) :
    Session σ β × Reply :=
  match s.batches[batch]? with
  | some b =>
      let (b, result) := change b
      ({ s with batches := s.batches.set batch b }, .did result)
  | none => (s, .noBatch)

def step (F : Facade σ β) (s : Session σ β) : Call → Session σ β × Reply
  | .put k value =>
      let (site, result) := F.put s.site k value
      ({ s with site }, .did result)
  | .get k =>
      let (site, result) := F.get s.site k
      ({ s with site }, .got result)
  | .has k =>
      let (site, result) := F.has s.site k
      ({ s with site }, .found result)
  | .delete k =>
      let (site, result) := F.delete s.site k
      ({ s with site }, .did result)
  | .clear => ({ s with site := F.clear s.site }, .did (.ok ()))
  | .advance ms => ({ s with site := F.advance s.site ms }, .did (.ok ()))
  | .pace ms => ({ s with site := F.pace s.site ms }, .did (.ok ()))
  | .newBatch =>
      match F.newBatch with
      | .ok b => ({ s with batches := s.batches ++ [b] }, .did (.ok ()))
      | .error e => (s, .did (.error e))
  | .batchPut batch k value => s.onBatch batch fun b => F.batchPut b k value
  | .batchDelete batch k => s.onBatch batch fun b => F.batchDelete b k
  | .batchSize batch =>
      match s.batches[batch]? with
      | some b => (s, .size (F.batchSize b))
      | none => (s, .noBatch)
  | .batchWrite batch =>
      match s.batches[batch]? with
      | some b =>
          let (site, result) := F.batchWrite s.site b
          ({ s with site }, .did result)
      | none => (s, .noBatch)
  | .batchReset batch => s.onBatch batch fun b => (F.batchReset b, .ok ())

def run (F : Facade σ β) (s : Session σ β) (calls : List Call) : Session σ β :=
  calls.foldl (fun s call => (s.step F call).1) s

/-- What a caller learns from a history: each reply, with the counters of the cache after it. -/
def transcript (F : Facade σ β) : Session σ β → List Call → List (Reply × CacheStats)
  | _, [] => []
  | s, call :: rest =>
      let (next, reply) := s.step F call
      (reply, F.counters next.site) :: transcript F next rest

end Session

end KeyedBlocks
