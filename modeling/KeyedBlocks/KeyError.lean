/-!
What can be wrong with a key, a digest or the name of a codec.
-/
namespace KeyedBlocks

inductive KeyError
  /-- A digest of the wrong length. -/
  | malformedDigest (expected actual : Nat)
  /-- A digest text that is not hexadecimal. -/
  | invalidHex (detail : String)
  /-- A key, in hexadecimal, with more parts than any layout has. -/
  | unclassifiable (key : String) (parts : Nat)
  /-- A payload that cannot be wrapped as an address. -/
  | encoding (detail : String)
  | unknownCodec (name : String)
  deriving DecidableEq, Repr

namespace KeyError

def message : KeyError → String
  | malformedDigest expected actual =>
      "malformed digest: expected " ++ toString expected ++ " bytes, got " ++ toString actual
  | invalidHex detail => "invalid hex string: " ++ detail
  | unclassifiable key parts =>
      "unclassifiable key " ++ key ++ ": split into " ++ toString parts ++ " parts"
  | encoding detail => "encoding error: " ++ detail
  | unknownCodec name => "unknown codec: " ++ name

end KeyError

end KeyedBlocks
