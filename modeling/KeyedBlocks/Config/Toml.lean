import KeyedBlocks.Config
import KeyedBlocks.Toml.Decode
import KeyedBlocks.Toml.Document

/-!
Settings read from TOML documents. Every field may be left out, and has then its default. A store
and a relational database are checked as they are read; a cache is not.
-/
namespace KeyedBlocks

inductive SettingsError
  /-- The document is not TOML, or a field has a value of the wrong kind. -/
  | unreadable
  | invalid (e : StoreError)
  deriving DecidableEq, Repr

def SettingsError.message : SettingsError → String
  | .unreadable => "TOML parse error"
  | .invalid e => e.message

def readDocument {α : Type} (decode : Toml.Decoder α) (document : String) :
    Except SettingsError α :=
  match (Toml.parse? document).bind decode with
  | some a => .ok a
  | none => .error .unreadable

def word : Toml.Decoder Nat := Toml.natBelow (Nat.pow 2 64)

def Codec.ofToml : Toml.Decoder Codec := fun v => (Toml.name v).bind Codec.ofName?

namespace CacheConfig

def ofToml : Toml.Decoder CacheConfig :=
  Toml.record
    [Toml.fieldDecoder "max_bytes" word fun n c => { c with maxBytes := n },
     Toml.fieldDecoder "ttl_ms" word fun n c => { c with ttlMs := n },
     Toml.fieldDecoder "fetch_timeout_ms" word fun n c => { c with fetchTimeoutMs := n }]
    {}

def read (document : String) : Except SettingsError CacheConfig := readDocument ofToml document

end CacheConfig

namespace StoreConfig

def ofToml : Toml.Decoder StoreConfig :=
  Toml.record
    [Toml.fieldDecoder "batch_capacity" word fun n c => { c with batchCapacity := n },
     Toml.fieldDecoder "codec" Codec.ofToml fun codec c => { c with codec },
     Toml.fieldDecoder "cache" CacheConfig.ofToml fun cache c => { c with cache }]
    {}

def read (document : String) : Except SettingsError StoreConfig := do
  let c ← readDocument ofToml document
  c.check.mapError .invalid
  return c

end StoreConfig

namespace SqlConfig

def ofToml : Toml.Decoder SqlConfig :=
  Toml.record
    [Toml.fieldDecoder "url" Toml.string fun url c => { c with url },
     Toml.fieldDecoder "max_connections" (Toml.natBelow (Nat.pow 2 32)) fun n c =>
       { c with maxConnections := n },
     Toml.fieldDecoder "statement_timeout_ms" word fun n c =>
       { c with statementTimeoutMs := some n },
     Toml.fieldDecoder "iterator_page_size" word fun n c => { c with pageSize := n },
     Toml.fieldDecoder "store" StoreConfig.ofToml fun store c => { c with store }]
    {}

def read (document : String) : Except SettingsError SqlConfig := do
  let c ← readDocument ofToml document
  c.check.mapError .invalid
  return c

end SqlConfig

end KeyedBlocks
