import KeyedBlocks.Handle

/-!
A site in concurrent use. Any number of gets, puts, deletes and flushed batches go on at one time,
through any handles. What happens at once is one critical section of the cache, one call to the
backend, or the moment at which somebody learns how a call has ended; between these, anybody else
may act. Any interleaving is a list of accesses, and an access that is not due changes nothing.
-/
namespace KeyedBlocks

/-- The raw key that a get was asked for, and what its loader has read. -/
structure Reading where
  raw : Bytes
  found : Option (Except StoreError Bytes)

inductive Progress (ω : Type)
  | pending (plan : List (Effect ω))
  | ended (result : Except StoreError Unit)
  | dropped

/-- A write goes on with the rest of its steps unless the last one has failed. -/
def Progress.goOn {ω : Type} (rest : List (Effect ω)) : Except StoreError Unit → Progress ω
  | .ok _ => .pending rest
  | .error e => .ended (.error e)

structure Writing (ω : Type) where
  request : Request
  progress : Progress ω

/-- A backend, the traffic of the cache in front of it, what the loader of each get has read, and
the writes begun so far. -/
structure SharedSite (β ω : Type) where
  backend : β
  traffic : Traffic Address StoreError
  readings : List Reading
  writings : List (Writing ω)

inductive Access
  /-- A get begins and looks its key up. -/
  | get (h : Handle) (key : Key)
  /-- The backend is read for the loader of a get. -/
  | read (call : CallId)
  /-- The loader of a get is told what was read. -/
  | reply (call : CallId)
  /-- A move in the cache that neither begins a get nor answers one. -/
  | move (m : Move Address StoreError)
  | put (h : Handle) (key : Key) (value : Bytes)
  | delete (h : Handle) (key : Key)
  | flush (b : Buffer)
  /-- The next step of a write; after the last one it returns. -/
  | proceed (write : Nat)
  /-- A write is cancelled before its next step. -/
  | drop (write : Nat)

namespace SharedSite

variable {β ω : Type} [Backend β ω]

def start (backend : β) (config : CacheConfig) (now : Nat) : SharedSite β ω :=
  ⟨backend, .start (.create config) now, [], []⟩

/-- What is left of a shared site when all its users are forgotten. -/
def site (s : SharedSite β ω) : Site β := ⟨s.backend, s.traffic.cache, s.traffic.now⟩

def follow (s : SharedSite β ω) (m : Move Address StoreError) : SharedSite β ω :=
  { s with traffic := s.traffic.step m }

/-- Follow a move and take note of the loader that it may start. -/
def load (s : SharedSite β ω) (m : Move Address StoreError) : SharedSite β ω :=
  let next := s.follow m
  let begun := next.traffic.cache.stats.loads - s.traffic.cache.stats.loads
  { next with backend := Backend.countReads s.backend begun }

def beginGet (s : SharedSite β ω) (raw : Bytes) (a : Address) : SharedSite β ω :=
  { s.load (.get a) with readings := s.readings ++ [⟨raw, none⟩] }

def beginWrite (s : SharedSite β ω) (request : Request) : SharedSite β ω :=
  { s with writings := s.writings ++ [⟨request, .pending (request.plan β)⟩] }

def setProgress (s : SharedSite β ω) (write : Nat) (progress : Progress ω) : SharedSite β ω :=
  { s with writings := s.writings.modify write fun writing => { writing with progress } }

def located (s : SharedSite β ω) (h : Handle) (key : Key) (act : Address → SharedSite β ω) :
    SharedSite β ω :=
  match h.scheme.derive key with
  | .ok a => act a
  | .error _ => s

def read (s : SharedSite β ω) (call : CallId) : SharedSite β ω :=
  match s.readings[call]?, s.traffic.call? call with
  | some ⟨raw, none⟩, some ⟨a, .leading _ none⟩ =>
      { s with readings := s.readings.set call ⟨raw, some (Site.answer s.backend raw a)⟩ }
  | _, _ => s

def reply (s : SharedSite β ω) (call : CallId) : SharedSite β ω :=
  match s.readings[call]? with
  | some ⟨_, some result⟩ => s.follow (.answer call result)
  | _ => s

def move (s : SharedSite β ω) : Move Address StoreError → SharedSite β ω
  | .get _ | .answer .. => s
  | m => s.load m

def proceed (s : SharedSite β ω) (write : Nat) : SharedSite β ω :=
  match s.writings[write]? with
  | some ⟨_, .pending []⟩ => s.setProgress write (.ended (.ok ()))
  | some ⟨_, .pending (.forget a :: rest)⟩ =>
      (s.follow (.invalidate a)).setProgress write (.pending rest)
  | some ⟨_, .pending (.perform change :: rest)⟩ =>
      let (backend, result) := Backend.perform s.backend change
      { s with backend }.setProgress write (.goOn rest result)
  | _ => s

def drop (s : SharedSite β ω) (write : Nat) : SharedSite β ω :=
  match s.writings[write]? with
  | some ⟨_, .pending _⟩ => s.setProgress write .dropped
  | _ => s

def step (s : SharedSite β ω) : Access → SharedSite β ω
  | .get h key => s.located h key (s.beginGet key.raw)
  | .read call => s.read call
  | .reply call => s.reply call
  | .move m => s.move m
  | .put h key value => s.located h key fun a => s.beginWrite (.put key.raw a value)
  | .delete h key => s.located h key fun a => s.beginWrite (.delete key.raw a)
  | .flush b => s.beginWrite (.flush b)
  | .proceed write => s.proceed write
  | .drop write => s.drop write

def run (s : SharedSite β ω) (accesses : List Access) : SharedSite β ω := accesses.foldl step s

end SharedSite

end KeyedBlocks
