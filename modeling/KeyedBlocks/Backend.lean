import KeyedBlocks.Buffer
import KeyedBlocks.Cache.Timeline

/-!
What a database asks of the place where its blocks are kept, and the site where that place and a
read cache are used together. A write is a plan of steps, each of which happens at once: the
backend performs something, or the cache forgets an address.
-/
namespace KeyedBlocks

/-- A step of a write; `ω` is what a backend can perform. -/
inductive Effect (ω : Type)
  | perform (write : ω)
  | forget (a : Address)
  deriving DecidableEq, Repr

class Backend (β : Type) (ω : outParam Type) where
  has : β → Address → β × Except StoreError Bool
  /-- What a read finds at the moment when it ends. -/
  read : β → Address → Except StoreError (Option Bytes)
  /-- How long a read takes; none if its answer is there at once. -/
  readDelay : β → Option Nat
  /-- Take note of reads that were begun. -/
  countReads : β → Nat → β
  perform : β → ω → β × Except StoreError Unit
  /-- Write a block under an address, for the given key. -/
  put : Bytes → Address → Bytes → ω
  /-- Drop the block under an address, for the given key. -/
  delete : Bytes → Address → ω
  /-- The steps that write a batch. -/
  flush : Buffer → List (Effect ω)

inductive Request
  | put (raw : Bytes) (a : Address) (value : Bytes)
  | delete (raw : Bytes) (a : Address)
  | flush (b : Buffer)

/-- The steps of a write. A put leaves the cache as it is, so a value that it holds stays visible; a
delete is made first where the block is kept and then in the cache. -/
def Request.plan (β : Type) {ω : Type} [Backend β ω] : Request → List (Effect ω)
  | .put raw a value => [.perform (Backend.put β raw a value)]
  | .delete raw a => [.perform (Backend.delete β raw a), .forget a]
  | .flush b => Backend.flush β b

/-- A backend with a read cache in front of it, at a time. -/
structure Site (β : Type) where
  backend : β
  cache : ReadCache Address
  now : Nat

namespace Site

variable {β ω : Type} [Backend β ω]

def step (s : Site β) : Effect ω → Site β × Except StoreError Unit
  | .perform write =>
      let (backend, result) := Backend.perform s.backend write
      ({ s with backend }, result)
  | .forget a => ({ s with cache := s.cache.invalidate a }, .ok ())

/-- Take the steps of a write until one fails. -/
def run (s : Site β) (plan : List (Effect ω)) : Site β × Except StoreError Unit :=
  runSteps step s plan

/-- Read the block at an address for a raw key, which is named if there is no block. -/
def answer (backend : β) (raw : Bytes) (a : Address) : Except StoreError Bytes :=
  match Backend.read backend a with
  | .ok (some value) => .ok value
  | .ok none => .error (.notFound (Hex.encode raw))
  | .error e => .error e

def getAll (s : Site β) (keys : List (Bytes × Address)) :
    Site β × List (Except StoreError Bytes) :=
  let gets := keys.map fun (raw, a) =>
    (0, Event.get a ⟨Backend.readDelay s.backend, answer s.backend raw a⟩)
  let played := Timeline.play s.cache s.now gets
  let begun := played.cache.stats.loads - s.cache.stats.loads
  ({ backend := Backend.countReads s.backend begun, cache := played.cache, now := played.now },
    (keys.zip played.outcomes).map fun ((raw, _), (outcome, _)) =>
      match outcome with
      | .got result => result
      | _ => .error (.notFound (Hex.encode raw)))

def get (s : Site β) (raw : Bytes) (a : Address) : Site β × Except StoreError Bytes :=
  let (s, results) := s.getAll [(raw, a)]
  (s, results.headD (.error (.notFound (Hex.encode raw))))

def has (s : Site β) (a : Address) : Site β × Except StoreError Bool :=
  let (backend, result) := Backend.has s.backend a
  ({ s with backend }, result)

/-- Make a write. The batch of a flush stays as it is. -/
def make (s : Site β) (request : Request) : Site β × Except StoreError Unit :=
  s.run (request.plan β)

def put (s : Site β) (raw : Bytes) (a : Address) (value : Bytes) :
    Site β × Except StoreError Unit :=
  s.make (.put raw a value)

def delete (s : Site β) (raw : Bytes) (a : Address) : Site β × Except StoreError Unit :=
  s.make (.delete raw a)

def flush (s : Site β) (b : Buffer) : Site β × Except StoreError Unit := s.make (.flush b)

end Site

end KeyedBlocks
