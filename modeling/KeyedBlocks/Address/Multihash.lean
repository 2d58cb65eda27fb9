import KeyedBlocks.Address.Varint
import KeyedBlocks.Codec
import KeyedBlocks.Digest
import KeyedBlocks.Text.Base32

/-!
A multihash names the hash function that made a payload. The identity function is used for
payloads that stand for themselves, which may be of any length up to a limit.
-/
namespace KeyedBlocks

structure Multihash where
  hash : HashFunction
  payload : Bytes
  deriving DecidableEq, Repr

namespace Multihash

def maxPayload : Nat := 128

def wrap (hash : HashFunction) (payload : Bytes) : Except KeyError Multihash :=
  if payload.length ≤ maxPayload then .ok ⟨hash, payload⟩
  else
    .error (.encoding
      (toString payload.length ++ " byte payload for multihash 0x" ++
        String.ofList (Nat.toDigits 16 hash.code) ++ ": Invalid multihash size " ++
        toString payload.length ++ "."))

def ofDigest (hash : HashFunction) (d : Digest) : Multihash := ⟨hash, d.bytes⟩

def identity (payload : Bytes) : Except KeyError Multihash := wrap .identity payload

/-- The code of the hash function, the length of the payload, and the payload. -/
def encode (m : Multihash) : Bytes :=
  Varint.encode m.hash.code ++ Varint.encode m.payload.length ++ m.payload

def datastoreKey (m : Multihash) : String := String.ofList (Base32.upper m.encode)

end Multihash

end KeyedBlocks
