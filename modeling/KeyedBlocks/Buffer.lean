import KeyedBlocks.Address.Scheme
import KeyedBlocks.RecencyMap
import KeyedBlocks.Steps

/-!
The pending writes of a batch, in two bounded buckets. A bucket that overflows gives up its oldest
entry and says so; the new entry is kept. The addresses are derived when a write is buffered.
-/
namespace KeyedBlocks

inductive Write
  | put (key value : Bytes)
  | delete (key : Bytes)
  deriving DecidableEq, Repr

structure Buffer where
  scheme : Scheme
  puts : RecencyMap Bytes (Address × Bytes)
  deletes : RecencyMap Bytes Address
  /-- The lengths of all values put since the last reset, replaced and dropped ones included. -/
  valueSize : Nat
  deriving DecidableEq, Repr

namespace Buffer

def create (scheme : Scheme) (capacity : Nat) : Except StoreError Buffer := do
  let puts ← RecencyMap.create capacity
  let deletes ← RecencyMap.create capacity
  return ⟨scheme, puts, deletes, 0⟩

def overflow {ν : Type} (bucket : Bucket) : Option (Bytes × ν) → Except StoreError Unit
  | some (key, _) => .error (.evicted bucket (Hex.encode key))
  | none => .ok ()

def addPut (b : Buffer) (value raw : Bytes) (a : Address) : Buffer × Except StoreError Unit :=
  let (puts, dropped) := b.puts.insert raw (a, value)
  ({ b with puts, valueSize := b.valueSize + value.length }, overflow .put dropped)

def addDelete (b : Buffer) (raw : Bytes) (a : Address) : Buffer × Except StoreError Unit :=
  let (deletes, dropped) := b.deletes.insert raw a
  ({ b with deletes }, overflow .delete dropped)

section Filed

-- A batch uses nothing of a scheme but the addresses it derives.
variable (derive : Key → Except KeyError Address) (b : Buffer)

def located (key : Key) (act : Address → Buffer × Except StoreError Unit) :
    Buffer × Except StoreError Unit :=
  match derive key with
  | .ok a => act a
  | .error e => (b, .error (.ofKeyError e))

def classified (raw : Bytes) (act : Key → Buffer × Except StoreError Unit) :
    Buffer × Except StoreError Unit :=
  match Key.classify raw with
  | .ok key => act key
  | .error e => (b, .error (.ofKeyError e))

def putUnder (key : Key) (value : Bytes) : Buffer × Except StoreError Unit :=
  b.located derive key (b.addPut value key.raw)

def deleteUnder (key : Key) : Buffer × Except StoreError Unit :=
  b.located derive key (b.addDelete key.raw)

end Filed

def put (b : Buffer) (key : Key) (value : Bytes) : Buffer × Except StoreError Unit :=
  b.putUnder b.scheme.derive key value

def delete (b : Buffer) (key : Key) : Buffer × Except StoreError Unit :=
  b.deleteUnder b.scheme.derive key

def putRaw (b : Buffer) (raw value : Bytes) : Buffer × Except StoreError Unit :=
  b.classified raw fun key => b.put key value

def deleteRaw (b : Buffer) (raw : Bytes) : Buffer × Except StoreError Unit :=
  b.classified raw b.delete

def reset (b : Buffer) : Buffer :=
  { b with puts := b.puts.clear, deletes := b.deletes.clear, valueSize := 0 }

def isEmpty (b : Buffer) : Bool := b.puts.isEmpty && b.deletes.isEmpty

/-- The pending puts, oldest first: key, address and value. -/
def putList (b : Buffer) : List (Bytes × Address × Bytes) := b.puts.toList

def deleteList (b : Buffer) : List (Bytes × Address) := b.deletes.toList

/-- The pending writes by raw key, puts before deletes. -/
def writes (b : Buffer) : List Write :=
  (b.putList.map fun entry => .put entry.1 entry.2.2) ++
    b.deleteList.map fun entry => .delete entry.1

/-- Hand the pending writes to a writer, until it fails. -/
def replay {σ : Type} (b : Buffer) (write : σ → Write → σ × Except StoreError Unit) (s : σ) :
    σ × Except StoreError Unit :=
  runSteps write s b.writes

def debugText (b : Buffer) : String :=
  "WriteBuffer \x7b scheme: " ++ Quoted.text b.scheme.name ++ ", puts: " ++
    toString b.puts.size ++ ", deletes: " ++ toString b.deletes.size ++ ", value_size: " ++
    toString b.valueSize ++ " \x7d"

end Buffer

end KeyedBlocks
