import KeyedBlocks.Bytes

/-!
Unsigned numbers as bytes of seven bits, least significant first; every byte but the last has its
top bit set.
-/
namespace KeyedBlocks.Varint

/-- The bytes of `n`, of which there are at most `fuel`. -/
def encodeWith : Nat → Nat → Bytes
  | 0, _ => []
  | fuel + 1, n =>
      if n < 128 then [UInt8.ofNat n]
      else UInt8.ofNat (n % 128 + 128) :: encodeWith fuel (n / 128)

def encode (n : Nat) : Bytes := encodeWith (n + 1) n

end KeyedBlocks.Varint
