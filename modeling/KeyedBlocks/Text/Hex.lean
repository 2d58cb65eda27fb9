import KeyedBlocks.Bytes
import KeyedBlocks.Text.Quoted

/-!
Hexadecimal text. Bytes are written with two lower-case digits each; digits of either case are
read. A text of odd length is refused before its digits are looked at.
-/
namespace KeyedBlocks.Hex

inductive HexError
  | oddLength
  | badByte (byte : UInt8) (position : Nat)
  deriving DecidableEq, Repr

/-- A byte that is no digit is shown as the character of its own number. -/
def HexError.message : HexError → String
  | .oddLength => "Odd number of digits"
  | .badByte byte position =>
      "Invalid character " ++ Quoted.char (Char.ofNat byte.toNat) ++ " at position " ++
        toString position

def digitChar (n : Nat) : Char :=
  if n < 10 then Char.ofNat (48 + n) else Char.ofNat (87 + n)

def encodeChars : Bytes → List Char
  | [] => []
  | b :: rest => digitChar (b.toNat / 16) :: digitChar (b.toNat % 16) :: encodeChars rest

def encode (data : Bytes) : String := String.ofList (encodeChars data)

def digitValue? (b : UInt8) : Option Nat :=
  if 48 ≤ b.toNat ∧ b.toNat ≤ 57 then some (b.toNat - 48)
  else if 97 ≤ b.toNat ∧ b.toNat ≤ 102 then some (b.toNat - 87)
  else if 65 ≤ b.toNat ∧ b.toNat ≤ 70 then some (b.toNat - 55)
  else none

def digit (b : UInt8) (position : Nat) : Except HexError Nat :=
  match digitValue? b with
  | some value => .ok value
  | none => .error (.badByte b position)

/-- Read pairs of digits; the first of them stands at `position`. -/
def decodePairs (position : Nat) : Bytes → Except HexError Bytes
  | [] => .ok []
  | [_] => .error .oddLength
  | high :: low :: rest => do
      let h ← digit high position
      let l ← digit low (position + 1)
      let tail ← decodePairs (position + 2) rest
      return UInt8.ofNat (16 * h + l) :: tail

def decodeBytes (data : Bytes) : Except HexError Bytes :=
  if data.length % 2 = 0 then decodePairs 0 data else .error .oddLength

def decode (text : String) : Except HexError Bytes := decodeBytes (Bytes.ofText text)

/-- Drop one leading `0x`, as keys are often written with it. -/
def stripMark (text : String) : String :=
  match text.toList with
  | '0' :: 'x' :: rest => String.ofList rest
  | _ => text

end KeyedBlocks.Hex
