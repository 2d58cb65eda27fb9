import KeyedBlocks.Blocks.Service
import KeyedBlocks.Config
import KeyedBlocks.Handle

/-!
A database over a block service. Its blocks are filed under content identifiers, which do not keep
the order of keys, so there is no iterating over it.
-/
namespace KeyedBlocks

structure BlockDatabase where
  config : StoreConfig
  deriving DecidableEq, Repr

namespace BlockDatabase

def create (config : StoreConfig) : Except StoreError BlockDatabase := do
  config.check
  return ⟨config⟩

def handle (d : BlockDatabase) : Handle :=
  ⟨.keccakCid d.config.codec, d.config.batchCapacity⟩

/-- Every attempt to iterate fails. -/
def iterate : StoreError :=
  .unsupported "ordered iteration over a content-addressed block service"

def stat (s : Site BlockService) (property : String) : Except StoreError String :=
  if property = "exchange" ∨ property = "online" then .ok (toString s.backend.store.online)
  else
    match s.cache.stats.property? property with
    | some value => .ok value
    | none => .error (unknownProperty property)

def debugText (d : BlockDatabase) (service : BlockService) : String :=
  "BlockServiceDatabase \x7b codec: " ++ d.config.codec.debugText ++ ", online: " ++
    toString service.store.online ++ " \x7d"

end BlockDatabase

end KeyedBlocks
