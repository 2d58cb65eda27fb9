import KeyedBlocks.Address.Cid
import KeyedBlocks.Key

/-!
Addresses, and the two schemes that derive them from keys. A scheme is a pure function of the key
and its own parameters, so that every handle finds the same block under the same key.
-/
namespace KeyedBlocks

/-- The text that a backend files a block under. -/
structure Address where
  text : String
  deriving DecidableEq, Repr

namespace Address

def debugText (a : Address) : String := "ContentAddress(" ++ a.text ++ ")"

/-- Addresses are ordered by the bytes of their texts. -/
def compare (a b : Address) : Ordering :=
  compareOfLessAndEq (Bytes.ofText a.text) (Bytes.ofText b.text)

end Address

inductive Scheme
  /-- Content identifiers. Digests are tagged with a codec; other keys are embedded whole. -/
  | cid (codec : Codec) (hash : HashFunction)
  /-- Names in a flat datastore. Digests go under `/blocks/`; other keys are written in hex. -/
  | blockstore (hash : HashFunction)
  deriving DecidableEq, Repr

namespace Scheme

def keccakCid (codec : Codec) : Scheme := .cid codec .keccak256

def keccakBlockstore : Scheme := .blockstore .keccak256

def name : Scheme → String
  | cid .. => "cid"
  | blockstore _ => "blockstore-key"

def debugText : Scheme → String
  | cid codec hash =>
      "CidScheme \x7b codec: " ++ codec.debugText ++ ", hash: " ++ hash.debugText ++ " \x7d"
  | blockstore hash => "BlockstoreKeyScheme \x7b hash: " ++ hash.debugText ++ " \x7d"

/-- The content identifier of an address source. Verbatim keys carry the raw codec. -/
def cidOf (codec : Codec) (hash : HashFunction) : AddressSource → Except KeyError Cid
  | .digest d => .ok ⟨codec, .ofDigest hash d⟩
  | .verbatim raw => do
      let m ← Multihash.identity raw
      return ⟨.raw, m⟩

def blockName (hash : HashFunction) (d : Digest) : Address :=
  ⟨"/blocks/" ++ (Multihash.ofDigest hash d).datastoreKey⟩

def locate (scheme : Scheme) (source : AddressSource) : Except KeyError Address :=
  match scheme with
  | cid codec hash => (cidOf codec hash source).map fun c => ⟨c.text⟩
  | blockstore hash =>
      match source with
      | .digest d => .ok (blockName hash d)
      | .verbatim raw => .ok ⟨Hex.encode raw⟩

def derive (scheme : Scheme) (key : Key) : Except KeyError Address := do
  let source ← key.source
  scheme.locate source

def deriveRaw (scheme : Scheme) (raw : Bytes) : Except KeyError Address := do
  let key ← Key.classify raw
  scheme.derive key

end Scheme

end KeyedBlocks
