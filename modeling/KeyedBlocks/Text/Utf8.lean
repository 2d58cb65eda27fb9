import KeyedBlocks.Bytes

/-!
UTF-8 text. Bytes are cut into characters and into the longest stretches that begin a character and
do not finish it; a strict reader refuses the first of these, a lenient one replaces each of them.
-/
namespace KeyedBlocks.Utf8

inductive Utf8Error
  /-- So many bytes from a position on are no character. -/
  | invalid (position length : Nat)
  /-- The bytes end inside the character that begins at a position. -/
  | incomplete (position : Nat)
  deriving DecidableEq, Repr

def Utf8Error.message : Utf8Error → String
  | .invalid position length =>
      "invalid utf-8 sequence of " ++ toString length ++ " bytes from index " ++ toString position
  | .incomplete position => "incomplete utf-8 byte sequence from index " ++ toString position

/-- A range of bytes, with both its ends. -/
abbrev Range := Nat × Nat

/-- Any byte after the second of a character. -/
def continuation : Range := (0x80, 0xbf)

/-- The ranges of the bytes that follow a first byte. They leave out characters written longer than
needed, surrogates and all that lies beyond the last character. -/
def followers? (first : Nat) : Option (List Range) :=
  if first < 0x80 then some []
  else if first < 0xc2 then none
  else if first < 0xe0 then some [continuation]
  else if first = 0xe0 then some [(0xa0, 0xbf), continuation]
  else if first = 0xed then some [(0x80, 0x9f), continuation]
  else if first < 0xf0 then some [continuation, continuation]
  else if first = 0xf0 then some [(0x90, 0xbf), continuation, continuation]
  else if first < 0xf4 then some [continuation, continuation, continuation]
  else if first = 0xf4 then some [(0x80, 0x8f), continuation, continuation]
  else none

inductive Piece
  | char (c : Char) (length : Nat)
  | invalid (length : Nat)
  | incomplete
  deriving DecidableEq, Repr

/-- Read what follows a first byte; `code` is the number read so far and `length` its bytes. -/
def follow (code length : Nat) : List Range → Bytes → Piece
  | [], _ => .char (Char.ofNat code) length
  | _ :: _, [] => .incomplete
  | (low, high) :: ranges, b :: rest =>
      if low ≤ b.toNat ∧ b.toNat ≤ high then
        follow (64 * code + b.toNat % 64) (length + 1) ranges rest
      else .invalid length

/-- The bits of a first byte that belong to the number of its character. -/
def leadBits (first : Nat) (ranges : List Range) : Nat :=
  match ranges.length with
  | 0 => first
  | 1 => first % 32
  | 2 => first % 16
  | _ => first % 8

def piece (first : UInt8) (rest : Bytes) : Piece :=
  match followers? first.toNat with
  | some ranges => follow (leadBits first.toNat ranges) 1 ranges rest
  | none => .invalid 1

/-- Cut what is left into pieces; `skip` bytes still belong to the last one. -/
def piecesFrom : Nat → Bytes → List Piece
  | _, [] => []
  | skip + 1, _ :: rest => piecesFrom skip rest
  | 0, b :: rest =>
      match piece b rest with
      | .char c length => .char c length :: piecesFrom (length - 1) rest
      | .invalid length => .invalid length :: piecesFrom (length - 1) rest
      | .incomplete => [.incomplete]

def pieces (data : Bytes) : List Piece := piecesFrom 0 data

/-- The characters of pieces, the first of which stands at `position`. -/
def characters (position : Nat) : List Piece → Except Utf8Error (List Char)
  | [] => .ok []
  | .char c length :: rest => do
      let tail ← characters (position + length) rest
      return c :: tail
  | .invalid length :: _ => .error (.invalid position length)
  | .incomplete :: _ => .error (.incomplete position)

def decode (data : Bytes) : Except Utf8Error String :=
  (characters 0 (pieces data)).map String.ofList

/-- Every piece that is no character becomes the replacement character. -/
def decodeLenient (data : Bytes) : String :=
  String.ofList ((pieces data).map fun
    | .char c _ => c
    | _ => '\ufffd')

end KeyedBlocks.Utf8
