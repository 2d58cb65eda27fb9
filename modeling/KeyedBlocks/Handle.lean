import KeyedBlocks.Backend

/-!
Handles, through which keys are used at a site. A handle knows how addresses are derived and how
large a batch may grow, and nothing else, so any number of handles may share one site. A key is
given with its class or as raw bytes, which are then classified by their marks.
-/
namespace KeyedBlocks

structure Handle where
  scheme : Scheme
  batchCapacity : Nat
  deriving DecidableEq, Repr

namespace Handle

variable {β ω α : Type} [Backend β ω]

def address (h : Handle) (raw : Bytes) : Except StoreError Address :=
  liftKey (h.scheme.deriveRaw raw)

/-- Go on with the address of a key. A key without an address leaves the site as it is. -/
def located (h : Handle) (s : Site β) (key : Key) (act : Address → Site β × Except StoreError α) :
    Site β × Except StoreError α :=
  match h.scheme.derive key with
  | .ok a => act a
  | .error e => (s, .error (.ofKeyError e))

def classified (s : Site β) (raw : Bytes) (act : Key → Site β × Except StoreError α) :
    Site β × Except StoreError α :=
  match Key.classify raw with
  | .ok key => act key
  | .error e => (s, .error (.ofKeyError e))

/-- Whether there is a block for a key. The cache is not asked. -/
def has (h : Handle) (s : Site β) (key : Key) : Site β × Except StoreError Bool :=
  h.located s key s.has

def get (h : Handle) (s : Site β) (key : Key) : Site β × Except StoreError Bytes :=
  h.located s key (s.get key.raw)

def put (h : Handle) (s : Site β) (key : Key) (value : Bytes) : Site β × Except StoreError Unit :=
  h.located s key fun a => s.put key.raw a value

def delete (h : Handle) (s : Site β) (key : Key) : Site β × Except StoreError Unit :=
  h.located s key (s.delete key.raw)

def hasRaw (h : Handle) (s : Site β) (raw : Bytes) : Site β × Except StoreError Bool :=
  classified s raw (h.has s)

def getRaw (h : Handle) (s : Site β) (raw : Bytes) : Site β × Except StoreError Bytes :=
  classified s raw (h.get s)

def putRaw (h : Handle) (s : Site β) (raw value : Bytes) : Site β × Except StoreError Unit :=
  classified s raw fun key => h.put s key value

def deleteRaw (h : Handle) (s : Site β) (raw : Bytes) : Site β × Except StoreError Unit :=
  classified s raw (h.delete s)

/-- Put the results of what could be done in the places of what was asked for. -/
def fillIn {ε γ δ : Type} : List (Except ε γ) → List (Except ε δ) → List (Except ε δ)
  | .error e :: asked, results => .error e :: fillIn asked results
  | .ok _ :: asked, result :: results => result :: fillIn asked results
  | .ok _ :: _, [] => []
  | [], _ => []

def getAllRaw (h : Handle) (s : Site β) (raws : List Bytes) :
    Site β × List (Except StoreError Bytes) :=
  let asked := raws.map fun raw => (h.address raw).map fun a => (raw, a)
  let (s, results) := s.getAll (asked.filterMap Except.toOption)
  (s, fillIn asked results)

def newBatch (h : Handle) : Except StoreError Buffer := Buffer.create h.scheme h.batchCapacity

def write (h : Handle) (s : Site β) : Write → Site β × Except StoreError Unit
  | .put raw value => h.putRaw s raw value
  | .delete raw => h.deleteRaw s raw

def replay (h : Handle) (s : Site β) (b : Buffer) : Site β × Except StoreError Unit :=
  b.replay h.write s

end Handle

/-- No database has such a property. -/
def unknownProperty (property : String) : StoreError :=
  .config ("unknown database property: " ++ property)

/-- What a full database of chain data may be asked for besides, and no database here can do: to
compact itself, to freeze a view of itself, and to keep an archive of old segments. -/
inductive Extra
  | compact
  | newSnapshot
  | hasAncient
  | ancient
  | ancientRange
  | ancients
  | tail
  | ancientSize
  | truncateHead
  | truncateTail
  | sync
  | ancientDatadir
  deriving DecidableEq, Repr

namespace Extra

def all : List Extra :=
  [compact, newSnapshot, hasAncient, ancient, ancientRange, ancients, tail, ancientSize,
    truncateHead, truncateTail, sync, ancientDatadir]

def name : Extra → String
  | compact => "compact"
  | newSnapshot => "new_snapshot"
  | hasAncient => "has_ancient"
  | ancient => "ancient"
  | ancientRange => "ancient_range"
  | ancients => "ancients"
  | tail => "tail"
  | ancientSize => "ancient_size"
  | truncateHead => "truncate_head"
  | truncateTail => "truncate_tail"
  | sync => "sync"
  | ancientDatadir => "ancient_datadir"

def ofName? (name : String) : Option Extra := all.find? fun extra => extra.name = name

def answer (extra : Extra) : StoreError := .unsupported extra.name

end Extra

end KeyedBlocks
