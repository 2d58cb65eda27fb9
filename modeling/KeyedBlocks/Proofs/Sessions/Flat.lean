import KeyedBlocks.Proofs.Backends.FaultFree
import KeyedBlocks.Proofs.Sessions.Facade

/-!
A database reduced to what its callers depend on: one flat map from address sources to blocks and
one read cache over the same sources. It has no addresses, so no key is too long for it, and a fetch
is a look at the map when the time that it takes is over.
-/
namespace KeyedBlocks

structure Flat where
  blocks : List (AddressSource × Bytes)
  cache : ReadCache AddressSource
  now : Nat
  fetchMs : Nat

/-- The pending writes of a batch, with address sources in the place of addresses. -/
structure FlatBatch where
  puts : RecencyMap Bytes (AddressSource × Bytes)
  deletes : RecencyMap Bytes AddressSource
  valueSize : Nat

namespace FlatBatch

def create (capacity : Nat) : Except StoreError FlatBatch := do
  let puts ← RecencyMap.create capacity
  let deletes ← RecencyMap.create capacity
  return ⟨puts, deletes, 0⟩

def put (b : FlatBatch) (raw : Bytes) (source : AddressSource) (value : Bytes) :
    FlatBatch × Except StoreError Unit :=
  let (puts, dropped) := b.puts.insert raw (source, value)
  ({ b with puts, valueSize := b.valueSize + value.length }, Buffer.overflow .put dropped)

def delete (b : FlatBatch) (raw : Bytes) (source : AddressSource) :
    FlatBatch × Except StoreError Unit :=
  let (deletes, dropped) := b.deletes.insert raw source
  ({ b with deletes }, Buffer.overflow .delete dropped)

def reset (b : FlatBatch) : FlatBatch :=
  { puts := b.puts.clear, deletes := b.deletes.clear, valueSize := 0 }

def putBlocks (b : FlatBatch) : List (AddressSource × Bytes) := b.puts.toList.map Prod.snd

def deleted (b : FlatBatch) : List AddressSource := b.deletes.toList.map Prod.snd

end FlatBatch

namespace Flat

def create (config : CacheConfig) (now : Nat) : Flat := ⟨[], .create config, now, 0⟩

def put (t : Flat) (source : AddressSource) (value : Bytes) : Flat :=
  { t with blocks := Assoc.insert source value t.blocks }

def delete (t : Flat) (source : AddressSource) : Flat :=
  { t with blocks := Assoc.erase source t.blocks, cache := t.cache.invalidate source }

def found (t : Flat) (raw : Bytes) (source : AddressSource) : Except StoreError Bytes :=
  match Assoc.find? source t.blocks with
  | some value => .ok value
  | none => .error (.notFound (Hex.encode raw))

/-- When a fetch ends that begins now. -/
def later (t : Flat) : Nat := t.now + min t.fetchMs Duration.longestWait

/-- A get is answered by a live entry of the cache, or fetches and waits for the end. -/
def get (t : Flat) (raw : Bytes) (source : AddressSource) : Flat × Except StoreError Bytes :=
  let looked := (t.cache.consult t.now 0 true source).2
  match t.cache.peek t.now source with
  | some value => ({ t with cache := looked }, .ok value)
  | none =>
      let result := t.found raw source
      ({ t with cache := looked.settle t.later 0 source result, now := t.later }, result)

def write (t : Flat) (b : FlatBatch) : Flat :=
  { t with
    blocks := eraseAll (writeAll t.blocks b.putBlocks) b.deleted
    cache := t.cache.invalidateAll b.deleted }

def facade (capacity : Nat) : Facade Flat FlatBatch where
  put t k value := k.use t fun _ source => (t.put source value, .ok ())
  get t k := k.use t fun raw source => t.get raw source
  has t k := k.use t fun _ source => (t, .ok (Assoc.contains source t.blocks))
  delete t k := k.use t fun _ source => (t.delete source, .ok ())
  clear t := { t with cache := t.cache.clear }
  advance t ms := { t with now := t.now + ms }
  pace t ms := { t with fetchMs := ms }
  counters t := t.cache.stats
  newBatch := FlatBatch.create capacity
  batchPut b k value := k.use b fun raw source => b.put raw source value
  batchDelete b k := k.use b fun raw source => b.delete raw source
  batchSize := FlatBatch.valueSize
  batchReset := FlatBatch.reset
  batchWrite t b := (t.write b, .ok ())

end Flat

end KeyedBlocks
