import KeyedBlocks.Digest

/-!
Keys and their layouts. A key is classified by its length and by fixed marks inside it; the class
decides whether its block is found under a digest in the key or under the key itself. A caller who
knows what a key is can say so and skip the marks.
-/
namespace KeyedBlocks

/-- Divides a key into its leading, middle and trailing parts: `-fix-`. -/
def partMark : Bytes := [0x2d, 0x66, 0x69, 0x78, 0x2d]

/-- Divides the block number from the hash inside a header key: `-nmb-`. -/
def numberMark : Bytes := [0x2d, 0x6e, 0x6d, 0x62, 0x2d]

/-- The first part of a header key: `h`. -/
def headerTag : Bytes := [0x68]

/-- The first part of a preimage key: `secure-key-`. -/
def preimageTag : Bytes := [0x73, 0x65, 0x63, 0x75, 0x72, 0x65, 0x2d, 0x6b, 0x65, 0x79, 0x2d]

inductive KeyClass
  /-- A short opaque key. -/
  | literal
  /-- A bare digest. -/
  | hashed
  /-- A tag, then a block number and a hash. -/
  | header (tag : Bytes) (parts : List Bytes)
  /-- The preimage tag, then a hash. -/
  | preimage (remainder : Bytes)
  /-- Two parts, not addressed by hash. -/
  | twoPart (parts : List Bytes)
  /-- Three parts, not addressed by hash. -/
  | threePart (parts : List Bytes)
  deriving DecidableEq, Repr

namespace KeyClass

def name : KeyClass → String
  | literal => "static"
  | hashed => "hashed"
  | header .. => "header"
  | preimage _ => "preimage"
  | twoPart _ => "prefixed"
  | threePart _ => "suffixed"

/-- The class of a raw key, from the parts that the part mark divides it into. -/
def ofRaw (raw : Bytes) : Except KeyError KeyClass :=
  match Bytes.splitOn partMark raw with
  | [part] => .ok (if part.length < digestLength then .literal else .hashed)
  | [first, second] =>
      if first = headerTag then .ok (.header first (Bytes.splitOn numberMark second))
      else if first = preimageTag then .ok (.preimage second)
      else .ok (.twoPart [first, second])
  | [first, second, third] => .ok (.threePart [first, second, third])
  | parts => .error (.unclassifiable (Hex.encode raw) parts.length)

end KeyClass

inductive AddressSource
  | digest (d : Digest)
  | verbatim (raw : Bytes)
  deriving DecidableEq

structure Key where
  raw : Bytes
  kind : KeyClass
  deriving DecidableEq, Repr

namespace Key

def classify (raw : Bytes) : Except KeyError Key := do
  let kind ← KeyClass.ofRaw raw
  return ⟨raw, kind⟩

def ofDigest (d : Digest) : Key := ⟨d.bytes, .hashed⟩

/-- A key known to be opaque, whatever its length. -/
def ofLiteral (raw : Bytes) : Key := ⟨raw, .literal⟩

/-- The digest inside a key, if its class has one, else the key itself. -/
def source (key : Key) : Except KeyError AddressSource :=
  match key.kind with
  | .hashed => (Digest.ofBytes key.raw).map .digest
  | .header _ (_ :: hash :: _) => (Digest.ofBytes hash).map .digest
  | .header .. => .error (.malformedDigest digestLength 0)
  | .preimage remainder => (Digest.ofBytes remainder).map .digest
  | .literal | .twoPart _ | .threePart _ => .ok (.verbatim key.raw)

end Key

end KeyedBlocks
