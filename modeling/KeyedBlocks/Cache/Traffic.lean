import KeyedBlocks.Address.Scheme
import KeyedBlocks.Cache.Basic

/-!
Concurrent use of one read cache, as a machine whose moves are the atomic steps of its users: the
critical sections of the cache, the end of a fetch, the publication of its result, a look at a
fetch by a get that waits for it, and the two halves of a cancellation. Any interleaving of gets is
a list of moves. A move whose get is not in the right phase changes nothing.
-/
namespace KeyedBlocks

/-- How a cache reports that the fetch of a key took too long. -/
class TimedOut (κ ε : Type) where
  timedOut : κ → Duration → ε

instance : TimedOut Address StoreError := ⟨fun key after => .timeout key.text after⟩

inductive Phase (ε : Type)
  /-- It runs its loader since a time; the answer may be there already. -/
  | leading (since : Nat) (answer : Option (Except ε Bytes))
  /-- Its fetch is unregistered and the result not yet published. -/
  | settled (result : Except ε Bytes)
  /-- It was cancelled while leading: unregistered, and its waiters not yet told. -/
  | withdrawn
  /-- It waits for the result of another get. -/
  | waiting (leader : CallId)
  | returned (result : Except ε Bytes)
  | cancelled

structure Call (κ ε : Type) where
  key : κ
  phase : Phase ε

/-- A cache, the time, and all gets begun so far. -/
structure Traffic (κ ε : Type) where
  cache : ReadCache κ
  now : Nat
  calls : List (Call κ ε)

inductive Move (κ ε : Type)
  /-- A get begins and looks its key up. -/
  | get (key : κ)
  /-- The loader of a leading get gives its answer, and is heard. -/
  | answer (call : CallId) (result : Except ε Bytes)
  /-- The time allowed for a fetch is over. -/
  | expire (call : CallId)
  /-- A leading get with an answer unregisters its fetch. -/
  | settle (call : CallId)
  | publish (call : CallId)
  /-- A waiting get looks at the fetch that it waits for. -/
  | look (call : CallId)
  | cancel (call : CallId)
  /-- The waiters of a cancelled leader are told. -/
  | close (call : CallId)
  | invalidate (key : κ)
  | clear
  | advance (ms : Nat)

namespace Traffic

variable {κ ε : Type} [DecidableEq κ] [TimedOut κ ε]

def start (cache : ReadCache κ) (now : Nat) : Traffic κ ε := ⟨cache, now, []⟩

def call? (t : Traffic κ ε) (id : CallId) : Option (Call κ ε) := t.calls[id]?

def setPhase (t : Traffic κ ε) (id : CallId) (phase : Phase ε) : Traffic κ ε :=
  { t with calls := t.calls.modify id fun call => { call with phase } }

def Admission.phase (now : Nat) : Admission → Phase ε
  | .hit value => .returned (.ok value)
  | .lead => .leading now none
  | .wait leader => .waiting leader

def begin (t : Traffic κ ε) (key : κ) : Traffic κ ε :=
  let (admission, cache) := t.cache.consult t.now t.calls.length true key
  { t with cache, calls := t.calls ++ [⟨key, Admission.phase t.now admission⟩] }

/-- A get whose leader was cancelled goes back to the cache. -/
def retry (t : Traffic κ ε) (id : CallId) (key : κ) : Traffic κ ε :=
  let (admission, cache) := t.cache.consult t.now id false key
  { t with cache }.setPhase id (Admission.phase t.now admission)

def deadline (t : Traffic κ ε) (since : Nat) : Nat := since + t.cache.config.fetchTimeoutMs

def step (t : Traffic κ ε) : Move κ ε → Traffic κ ε
  | .get key => t.begin key
  | .answer id result =>
      match t.call? id with
      | some ⟨_, .leading since none⟩ => t.setPhase id (.leading since (some result))
      | _ => t
  | .expire id =>
      match t.call? id with
      | some ⟨key, .leading since none⟩ =>
          if t.deadline since ≤ t.now then
            let late := TimedOut.timedOut key t.cache.config.fetchTimeout
            t.setPhase id (.leading since (some (.error late)))
          else t
      | _ => t
  | .settle id =>
      match t.call? id with
      | some ⟨key, .leading _ (some result)⟩ =>
          { t with cache := t.cache.settle t.now id key result }.setPhase id (.settled result)
      | _ => t
  | .publish id =>
      match t.call? id with
      | some ⟨_, .settled result⟩ => t.setPhase id (.returned result)
      | _ => t
  | .look id =>
      match t.call? id with
      | some ⟨key, .waiting leader⟩ =>
          match t.call? leader with
          | some ⟨_, .returned result⟩ => t.setPhase id (.returned result)
          | some ⟨_, .cancelled⟩ => t.retry id key
          | _ => t
      | _ => t
  | .cancel id =>
      match t.call? id with
      | some ⟨key, .leading ..⟩ =>
          { t with cache := t.cache.withdraw id key }.setPhase id .withdrawn
      | some ⟨_, .waiting _⟩ => t.setPhase id .cancelled
      | _ => t
  | .close id =>
      match t.call? id with
      | some ⟨_, .withdrawn⟩ => t.setPhase id .cancelled
      | _ => t
  | .invalidate key => { t with cache := t.cache.invalidate key }
  | .clear => { t with cache := t.cache.clear }
  | .advance ms => { t with now := t.now + ms }

def run (t : Traffic κ ε) (moves : List (Move κ ε)) : Traffic κ ε := moves.foldl step t

end Traffic

end KeyedBlocks
