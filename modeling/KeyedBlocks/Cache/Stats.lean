/-!
The counters of a read cache, and the properties through which they are reported.
-/
namespace KeyedBlocks

structure CacheStats where
  /-- Gets answered from a live entry. -/
  hits : Nat := 0
  /-- Gets that found no live entry. -/
  misses : Nat := 0
  /-- Fetches started. -/
  loads : Nat := 0
  /-- Waits for the fetch of another get. -/
  coalesced : Nat := 0
  /-- Entries dropped to make room. -/
  evictions : Nat := 0
  deriving DecidableEq, Repr

def CacheStats.property? (s : CacheStats) (property : String) : Option String :=
  let value? :=
    if property = "cache.hits" then some s.hits
    else if property = "cache.misses" then some s.misses
    else if property = "cache.loads" then some s.loads
    else if property = "cache.coalesced" then some s.coalesced
    else if property = "cache.evictions" then some s.evictions
    else none
  value?.map toString

end KeyedBlocks
