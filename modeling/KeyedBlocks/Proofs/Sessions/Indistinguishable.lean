import KeyedBlocks.Blocks.Database
import KeyedBlocks.Proofs.Sessions.Refinement
import KeyedBlocks.Proofs.Sessions.Refused
import KeyedBlocks.Relational.Database

/-!
The two kinds of database, used in the same way. A database over a block service and one over
relational tables are the same flat database to a caller, one filed under content identifiers and
the other under datastore names, as long as no key is too long for a content identifier and fetches
take equally long at both. Where fetches do not, the clocks of the two drift apart, and with them
what their caches still hold.
-/
namespace KeyedBlocks

namespace Scheme

theorem keccakCid_place_injective (codec : Codec) : Function.Injective (keccakCid codec).place :=
  fun _ _ h => place_inj (Or.inl ⟨codec, rfl⟩) h

theorem keccakBlockstore_place_injective : Function.Injective keccakBlockstore.place :=
  fun _ _ h => place_inj (Or.inr rfl) h

end Scheme

namespace KeyForm

/-- A key that resolves to no verbatim source too long for a content identifier. -/
def Short (k : KeyForm) : Prop :=
  ∀ raw bytes, k.resolve = .ok (raw, .verbatim bytes) → bytes.length ≤ Multihash.maxPayload

theorem Short.fits {k : KeyForm} (h : k.Short) (scheme : Scheme) : k.Fits scheme := by
  intro raw source hresolve _ _ bytes _ hsource
  subst hsource
  exact h raw bytes hresolve

end KeyForm

namespace BlockDatabase

def facade (d : BlockDatabase) : Facade (Site BlockService) Buffer :=
  d.handle.facade BlockService.pace

/-- The first session with a database over an empty block store in memory, which may or may not have
a call for whole batches. -/
def session (d : BlockDatabase) (batches : Bool) (now : Nat) : Session (Site BlockService) Buffer :=
  ⟨⟨{ store := {}, batches }, .create d.config.cache, now⟩, []⟩

end BlockDatabase

namespace SqlDatabase

def facade (d : SqlDatabase) : Facade (Site Relational) Buffer := d.handle.facade Relational.pace

def session (d : SqlDatabase) (now : Nat) : Session (Site Relational) Buffer :=
  ⟨⟨.fresh d.config.maxConnections, .create d.config.store.cache, now⟩, []⟩

end SqlDatabase

namespace Session

/-- A call in a history in which the two kinds of database are compared: its key is short, and
fetches are not set to take longer than is allowed. -/
structure Call.Comparable (config : CacheConfig) (call : Call) : Prop where
  short : ∀ k, call.key? = some k → k.Short
  quick : ∀ ms, call = .pace ms → ms ≤ config.fetchTimeoutMs

theorem Call.Comparable.allowed {config : CacheConfig} {call : Call} (h : call.Comparable config)
    (scheme : Scheme) : call.Allowed scheme config.fetchTimeoutMs where
  fits k hk := (h.short k hk).fits scheme
  quick := h.quick

end Session

theorem BlockDatabase.session_mirrors (d : BlockDatabase) (batches : Bool) (now : Nat) :
    (d.session batches now).Mirrors BlockService.Serves d.handle.scheme
      d.config.cache.fetchTimeoutMs ⟨.create d.config.cache now, []⟩ where
  site := ⟨⟨rfl, rfl, rfl⟩, rfl, rfl, rfl, rfl, Nat.zero_le _⟩
  batches := rfl

theorem SqlDatabase.session_mirrors (d : SqlDatabase) (now : Nat) :
    (d.session now).Mirrors Relational.Serves d.handle.scheme
      d.config.store.cache.fetchTimeoutMs ⟨.create d.config.store.cache now, []⟩ where
  site := ⟨⟨rfl, rfl, rfl, rfl, rfl, [], rfl⟩, rfl, rfl, rfl, rfl, Nat.zero_le _⟩
  batches := rfl

/-- How a database over a block service and one over relational tables look to a caller, whatever
the history of calls. -/
structure Indistinguishable (d : BlockDatabase) (e : SqlDatabase) : Prop where
  /-- Histories whose keys are short and whose fetches end in time get the same replies from both,
  with the same counters of the cache after each call. -/
  same : ∀ batches now calls, (∀ call ∈ calls, call.Comparable d.config.cache) →
    (d.session batches now).transcript d.facade calls = (e.session now).transcript e.facade calls
  /-- After any history, a call with a key that is too long, on a batch that is open if it is on a
  batch, is answered by the block service with an encoding error and changes nothing there. -/
  refused : ∀ batches now calls call k, call.key? = some k → k.TooLong →
    (∀ batch, call.batch? = some batch →
      batch < ((d.session batches now).run d.facade calls).batches.length) →
    (((d.session batches now).run d.facade calls).step d.facade call).1 =
        (d.session batches now).run d.facade calls ∧
      ∃ detail, (((d.session batches now).run d.facade calls).step d.facade call).2.error? =
        some (.encoding detail)

/-- With equal settings for the cache and for batches, callers cannot tell the two kinds of database
apart. -/
theorem indistinguishable (d : BlockDatabase) (e : SqlDatabase)
    (hcache : e.config.store.cache = d.config.cache)
    (hcapacity : e.config.store.batchCapacity = d.config.batchCapacity) :
    Indistinguishable d e where
  same batches now calls hcalls := by
    have hblocks := (d.session_mirrors batches now).transcript_eq BlockService.faultFree
      (Scheme.keccakCid_place_injective d.config.codec)
      fun call hmem => (hcalls call hmem).allowed d.handle.scheme
    have htables := (e.session_mirrors now).transcript_eq Relational.faultFree
      Scheme.keccakBlockstore_place_injective
      fun call hmem => by
        rw [hcache]
        exact (hcalls call hmem).allowed e.handle.scheme
    have hhandles : d.handle.batchCapacity = e.handle.batchCapacity := hcapacity.symm
    rw [hcache, ← hhandles] at htables
    exact hblocks.trans htables.symm
  refused batches now calls call k hcall hlong hopen := by
    obtain ⟨key, detail, hkey, hderive⟩ := hlong.derive d.config.codec
    have hnone : (d.session batches now).Schemed d.handle.scheme := fun b hmem => by cases hmem
    have hschemed : ((d.session batches now).run d.facade calls).Schemed d.handle.scheme :=
      hnone.run calls
    have hrefused : _ ∧ (Session.step d.facade _ call).2.error? = _ :=
      Session.step_refused hschemed hcall hopen hkey hderive
    exact ⟨hrefused.1, detail, hrefused.2⟩

namespace Drift

def cache : CacheConfig := { ttlMs := 50 }

def blocks : BlockDatabase := ⟨{ cache }⟩

def tables : SqlDatabase := ⟨{ store := { cache } }⟩

theorem indistinguishable_blocks_tables :
    tables.config.store.cache = blocks.config.cache ∧
      tables.config.store.batchCapacity = blocks.config.batchCapacity ∧
      Indistinguishable blocks tables :=
  ⟨rfl, rfl, indistinguishable blocks tables rfl rfl⟩

def key : KeyForm := .raw [0x6b]

def other : KeyForm := .raw [0x6f]

/-- A block is read and then overwritten; while another key is looked for in vain, time may pass. -/
def calls : List Session.Call :=
  [.put key [1], .get key, .put key [2], .get other, .get key]

theorem comparable {ms : Nat} (hms : ms ≤ 500) :
    ∀ call ∈ Session.Call.pace ms :: calls, call.Comparable cache := by
  have hkey : key.Short := by
    intro raw bytes hresolve
    cases hresolve
    decide
  have hother : other.Short := by
    intro raw bytes hresolve
    cases hresolve
    decide
  intro call hmem
  simp only [calls, List.mem_cons, List.not_mem_nil, or_false] at hmem
  rcases hmem with rfl | rfl | rfl | rfl | rfl | rfl
  all_goals
    constructor
    · intro k hk
      cases hk <;> assumption
    · intro other hpace
      cases hpace <;> assumption

/-- Where fetches take 60 milliseconds the last get reads the new value; where they take none it is
served the old one from the cache. -/
theorem last_gets_differ :
    (∀ call ∈ Session.Call.pace 60 :: calls, call.Comparable blocks.config.cache) ∧
      (∀ call ∈ Session.Call.pace 0 :: calls, call.Comparable blocks.config.cache) ∧
      ((blocks.session true 0).transcript blocks.facade (.pace 60 :: calls)).getLast?.map Prod.fst =
        some (.got (.ok [2])) ∧
      ((tables.session 0).transcript tables.facade (.pace 0 :: calls)).getLast?.map Prod.fst =
        some (.got (.ok [1])) :=
  ⟨comparable (by omega), comparable (by omega), rfl, rfl⟩

end Drift

end KeyedBlocks
