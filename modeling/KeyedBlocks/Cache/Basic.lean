import KeyedBlocks.Cache.Held
import KeyedBlocks.Cache.Stats
import KeyedBlocks.Config

/-!
A read cache and its critical sections, each of which happens at once. At most one fetch is
registered for a key. A fetch goes by the number of the get that leads it, so a leader that is done
can tell whether the registered fetch is still its own.
-/
namespace KeyedBlocks

/-- Gets are numbered in the order in which they begin. -/
abbrev CallId := Nat

structure ReadCache (κ : Type) where
  config : CacheConfig
  held : Held κ
  /-- The get that leads the registered fetch of a key. -/
  inflight : List (κ × CallId)
  stats : CacheStats
  deriving DecidableEq, Repr

/-- How a get goes on after it has looked its key up. -/
inductive Admission
  | hit (value : Bytes)
  /-- The get has to fetch the value itself. -/
  | lead
  /-- Another get is fetching the value. -/
  | wait (leader : CallId)
  deriving DecidableEq, Repr

namespace ReadCache

variable {κ : Type} [DecidableEq κ]

def create (config : CacheConfig) : ReadCache κ := ⟨config, .empty, [], {}⟩

def leader? (c : ReadCache κ) (key : κ) : Option CallId := Assoc.find? key c.inflight

/-- Look a key up for a get. Only the first look-up of a get counts as a miss. -/
def consult (c : ReadCache κ) (now : Nat) (call : CallId) (first : Bool) (key : κ) :
    Admission × ReadCache κ :=
  match c.held.lookup now key with
  | (some value, held) =>
      (.hit value, { c with held, stats := { c.stats with hits := c.stats.hits + 1 } })
  | (none, held) =>
      let misses := if first then c.stats.misses + 1 else c.stats.misses
      match c.leader? key with
      | some leader =>
          (.wait leader,
            { c with held, stats := { c.stats with misses, coalesced := c.stats.coalesced + 1 } })
      | none =>
          (.lead,
            { c with
              held
              inflight := Assoc.insert key call c.inflight
              stats := { c.stats with misses, loads := c.stats.loads + 1 } })

/-- Unregister the fetch of a key, if `call` leads it. -/
def withdraw (c : ReadCache κ) (call : CallId) (key : κ) : ReadCache κ :=
  if c.leader? key = some call then { c with inflight := Assoc.erase key c.inflight } else c

/-- Hold a fetched value, unless it alone is longer than all that may be held. -/
def hold (c : ReadCache κ) (now : Nat) (key : κ) (value : Bytes) : ReadCache κ :=
  if c.config.maxBytes < value.length then c
  else
    let (dropped, held) :=
      c.held.insert key value (now + c.config.ttlMs) c.config.maxBytes
    { c with held, stats := { c.stats with evictions := c.stats.evictions + dropped } }

/-- End the fetch that `call` leads. Its value is held only if the fetch is still registered. -/
def settle {ε : Type} (c : ReadCache κ) (now : Nat) (call : CallId) (key : κ)
    (result : Except ε Bytes) : ReadCache κ :=
  if c.leader? key = some call then
    match result with
    | .ok value => (c.withdraw call key).hold now key value
    | .error _ => c.withdraw call key
  else c

/-- Drop the entry of a key and detach its fetch, so that the result will not be held. -/
def invalidate (c : ReadCache κ) (key : κ) : ReadCache κ :=
  { c with held := c.held.remove key, inflight := Assoc.erase key c.inflight }

def peek (c : ReadCache κ) (now : Nat) (key : κ) : Option Bytes := c.held.peek now key

def clear (c : ReadCache κ) : ReadCache κ :=
  { c with held := ⟨[], c.held.recency.clear, 0⟩, inflight := [] }

def isEmpty (c : ReadCache κ) : Bool := c.held.size = 0

def debugText (c : ReadCache κ) : String :=
  "ReadCache \x7b config: " ++ c.config.debugText ++ ", .. \x7d"

end ReadCache

end KeyedBlocks
