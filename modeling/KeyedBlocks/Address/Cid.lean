import KeyedBlocks.Address.Multihash

/-!
Version 1 content identifiers: a codec and a multihash. Their text is the letter `b` and the
lower-case base 32 of their bytes.
-/
namespace KeyedBlocks

structure Cid where
  codec : Codec
  hash : Multihash
  deriving DecidableEq, Repr

namespace Cid

def encode (cid : Cid) : Bytes :=
  Varint.encode 1 ++ Varint.encode cid.codec.code ++ cid.hash.encode

def text (cid : Cid) : String := String.ofList ('b' :: Base32.lower cid.encode)

end Cid

end KeyedBlocks
