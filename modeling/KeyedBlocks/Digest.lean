import KeyedBlocks.KeyError
import KeyedBlocks.Text.Hex

/-!
Digests are exactly 32 bytes. They are written as 64 lower-case hexadecimal digits and read from
digits of either case, with or without a leading `0x`.
-/
namespace KeyedBlocks

def digestLength : Nat := 32

structure Digest where
  bytes : Bytes
  length_eq : bytes.length = digestLength
  deriving DecidableEq

namespace Digest

def ofBytes (data : Bytes) : Except KeyError Digest :=
  if h : data.length = digestLength then .ok ⟨data, h⟩
  else .error (.malformedDigest digestLength data.length)

def toHex (d : Digest) : String := Hex.encode d.bytes

def ofHex (text : String) : Except KeyError Digest :=
  match Hex.decode (Hex.stripMark text) with
  | .ok data => ofBytes data
  | .error e => .error (.invalidHex e.message)

/-- The first four bytes, enough to tell digests apart by eye. -/
def short (d : Digest) : String := Hex.encode (d.bytes.take 4)

def debugText (d : Digest) : String := "Digest(" ++ d.short ++ ")"

def compare (a b : Digest) : Ordering := compareOfLessAndEq a.bytes b.bytes

theorem ofBytes_bytes (d : Digest) : ofBytes d.bytes = .ok d := by
  simp [ofBytes, d.length_eq]

theorem ofBytes_eq_ok_iff {data : Bytes} {d : Digest} : ofBytes data = .ok d ↔ data = d.bytes := by
  constructor
  · intro h
    unfold ofBytes at h
    split at h
    · exact congrArg Digest.bytes (Except.ok.inj h)
    · cases h
  · rintro rfl
    exact ofBytes_bytes d

end Digest

end KeyedBlocks
