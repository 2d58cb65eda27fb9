import KeyedBlocks.Text.Hex
import KeyedBlocks.Text.Utf8

/-!
Percent signs in addresses, and the parameters after a question mark. A percent sign and two
hexadecimal digits stand for a byte; a percent sign without them stands for itself.
-/
namespace KeyedBlocks.Percent

def mark : UInt8 := 0x25

def decodeBytes : Bytes → Bytes
  | b :: high :: low :: rest =>
      if b = mark then
        match Hex.digitValue? high, Hex.digitValue? low with
        | some h, some l => UInt8.ofNat (16 * h + l) :: decodeBytes rest
        | _, _ => b :: decodeBytes (high :: low :: rest)
      else b :: decodeBytes (high :: low :: rest)
  | data => data

def decode (text : String) : Except Utf8.Utf8Error String :=
  Utf8.decode (decodeBytes (Bytes.ofText text))

/-- A name or a value of a parameter, in which a plus sign stands for a space. -/
def decodeForm (data : Bytes) : String :=
  Utf8.decodeLenient (decodeBytes (data.map fun b => if b = 0x2b then 0x20 else b))

/-- The part before the first equals sign and the part after it. -/
def parameter (data : Bytes) : String × String :=
  let name := data.takeWhile (· ≠ 0x3d)
  (decodeForm name, decodeForm (data.drop (name.length + 1)))

/-- The parameters between ampersands, those that are not empty. -/
def parameters (text : String) : List (String × String) :=
  ((Bytes.splitOn [0x26] (Bytes.ofText text)).filter fun part => !part.isEmpty).map parameter

end KeyedBlocks.Percent
