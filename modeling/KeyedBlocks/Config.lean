import KeyedBlocks.Codec
import KeyedBlocks.Error

/-!
The settings of a cache, of a store and of a relational database. Sizes and times are numbers of
64 bits. Settings can be built or read without being valid; they are checked before use, and the
first fault in a fixed order is the one reported.
-/
namespace KeyedBlocks

structure CacheConfig where
  maxBytes : Nat := 3 * 1024 * 1024
  ttlMs : Nat := 3600000
  fetchTimeoutMs : Nat := 500
  deriving DecidableEq, Repr

inductive CacheConfigError
  | zeroTtl
  | zeroFetchTimeout
  deriving DecidableEq, Repr

def CacheConfigError.message : CacheConfigError → String
  | .zeroTtl => "invalid cache config: ttl_ms must be positive"
  | .zeroFetchTimeout => "invalid cache config: fetch_timeout_ms must be positive"

namespace CacheConfig

def withTtl (c : CacheConfig) (d : Duration) : CacheConfig := { c with ttlMs := d.toMillis }

def withFetchTimeout (c : CacheConfig) (d : Duration) : CacheConfig :=
  { c with fetchTimeoutMs := d.toMillis }

def ttl (c : CacheConfig) : Duration := .ofMillis c.ttlMs

def fetchTimeout (c : CacheConfig) : Duration := .ofMillis c.fetchTimeoutMs

def check (c : CacheConfig) : Except CacheConfigError Unit :=
  if c.ttlMs = 0 then .error .zeroTtl
  else if c.fetchTimeoutMs = 0 then .error .zeroFetchTimeout
  else .ok ()

def debugText (c : CacheConfig) : String :=
  "CacheConfig \x7b max_bytes: " ++ toString c.maxBytes ++ ", ttl_ms: " ++ toString c.ttlMs ++
    ", fetch_timeout_ms: " ++ toString c.fetchTimeoutMs ++ " \x7d"

end CacheConfig

structure StoreConfig where
  batchCapacity : Nat := 1024
  codec : Codec := .ethStateTrie
  cache : CacheConfig := {}
  deriving DecidableEq, Repr

def StoreConfig.check (c : StoreConfig) : Except StoreError Unit :=
  if c.batchCapacity = 0 then .error (.config "batch_capacity must be positive")
  else c.cache.check.mapError fun e => .config e.message

structure SqlConfig where
  url : String := "sqlite://blockdb.sqlite"
  maxConnections : Nat := 10
  statementTimeoutMs : Option Nat := none
  pageSize : Nat := 256
  store : StoreConfig := {}
  deriving DecidableEq, Repr

namespace SqlConfig

def withStatementTimeout (c : SqlConfig) (d : Duration) : SqlConfig :=
  { c with statementTimeoutMs := some d.toMillis }

def statementTimeout (c : SqlConfig) : Option Duration := c.statementTimeoutMs.map .ofMillis

def beginsWith (c : SqlConfig) (scheme : String) : Bool := scheme.toList.isPrefixOf c.url.toList

def isPostgres (c : SqlConfig) : Bool :=
  c.beginsWith "postgres://" || c.beginsWith "postgresql://"

def check (c : SqlConfig) : Except StoreError Unit :=
  if !c.isPostgres && !c.beginsWith "sqlite:" then
    .error (.config ("unsupported database url: " ++ c.url))
  else if c.maxConnections = 0 then .error (.config "max_connections must be positive")
  else if c.pageSize = 0 then .error (.config "iterator_page_size must be positive")
  else c.store.check

end SqlConfig

end KeyedBlocks
