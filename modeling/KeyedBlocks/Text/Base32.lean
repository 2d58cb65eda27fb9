import KeyedBlocks.Bytes

/-!
Base 32 without padding. The bits of the bytes are taken five at a time, most significant first,
and the last group is filled up with zeros.
-/
namespace KeyedBlocks.Base32

/-- The eight bits of a byte, most significant first. -/
def byteBits (b : UInt8) : List Bool :=
  [7, 6, 5, 4, 3, 2, 1, 0].map b.toNat.testBit

def bits (data : Bytes) : List Bool := data.flatMap byteBits

def quintet (a b c d e : Bool) : Nat :=
  16 * a.toNat + 8 * b.toNat + 4 * c.toNat + 2 * d.toNat + e.toNat

/-- The bits in groups of five, each read as a number below 32. -/
def quintets : List Bool → List Nat
  | [] => []
  | [a] => [quintet a false false false false]
  | [a, b] => [quintet a b false false false]
  | [a, b, c] => [quintet a b c false false]
  | [a, b, c, d] => [quintet a b c d false]
  | a :: b :: c :: d :: e :: rest => quintet a b c d e :: quintets rest

def lowerChar (n : Nat) : Char :=
  if n < 26 then Char.ofNat (97 + n) else Char.ofNat (24 + n)

def upperChar (n : Nat) : Char :=
  if n < 26 then Char.ofNat (65 + n) else Char.ofNat (24 + n)

def lower (data : Bytes) : List Char := (quintets (bits data)).map lowerChar

def upper (data : Bytes) : List Char := (quintets (bits data)).map upperChar

end KeyedBlocks.Base32
