import KeyedBlocks.Codec
import KeyedBlocks.Digest

/-!
The JSON forms of digests, codecs and hash functions. A digest is a list of 32 numbers below 256.
A name stands for itself as a text, or as the one field of a record whose value is null.
-/
namespace KeyedBlocks

inductive Json
  | null
  | bool (b : Bool)
  | number (n : Int)
  /-- A number that is not whole. -/
  | fraction
  | text (s : String)
  | list (items : List Json)
  | record (fields : List (String × Json))

namespace Json

def name? : Json → Option String
  | text s => some s
  | record [(s, null)] => some s
  | _ => none

def byte? : Json → Option UInt8
  | number n => if 0 ≤ n ∧ n < 256 then some (UInt8.ofNat n.toNat) else none
  | _ => none

end Json

def Codec.ofJson? (v : Json) : Option Codec := v.name?.bind Codec.ofName?

def HashFunction.ofJson? (v : Json) : Option HashFunction := v.name?.bind HashFunction.ofName?

def Digest.ofJson? : Json → Option Digest
  | .list items => do
      let bytes ← items.mapM Json.byte?
      (Digest.ofBytes bytes).toOption
  | _ => none

end KeyedBlocks
