import KeyedBlocks.Assoc
import KeyedBlocks.Text.Percent

/-!
Names of database files that are written as addresses: an authority that names no other machine, a
path, and options after a question mark. A number sign ends an address. Percent signs are read
part by part, so that what they stand for divides nothing.
-/
namespace KeyedBlocks

structure FileUri where
  path : Bytes
  options : List (Bytes × Bytes)
  deriving DecidableEq, Repr

namespace FileUri

def scheme : Bytes := Bytes.ofText "file:"

def thisMachine : Bytes := Bytes.ofText "localhost"

def slash : UInt8 := 0x2f
def questionMark : UInt8 := 0x3f
def numberSign : UInt8 := 0x23
def ampersand : UInt8 := 0x26
def equalsSign : UInt8 := 0x3d

/-- A part with its percent signs read. A zero byte ends it. -/
def readPart (raw : Bytes) : Bytes := (Percent.decodeBytes raw).takeWhile (· ≠ 0)

def readOption (raw : Bytes) : Bytes × Bytes :=
  let name := raw.takeWhile (· ≠ equalsSign)
  (readPart name, readPart (raw.drop (name.length + 1)))

/-- Options without a name are passed over. -/
def readOptions (raw : Bytes) : List (Bytes × Bytes) :=
  ((Bytes.splitOn [ampersand] raw).map readOption).filter fun option => !option.1.isEmpty

def ofPath (text : Bytes) : FileUri :=
  let text := text.takeWhile (· ≠ numberSign)
  let path := text.takeWhile (· ≠ questionMark)
  ⟨readPart path, readOptions (text.drop (path.length + 1))⟩

/-- Read what follows the scheme. An authority that names another machine is the fault. -/
def ofBytes : Bytes → Except Bytes FileUri
  | a :: b :: text =>
      if a = slash ∧ b = slash then
        let authority := text.takeWhile (· ≠ slash)
        if authority = [] ∨ authority = thisMachine then
          .ok (ofPath (text.drop authority.length))
        else .error authority
      else .ok (ofPath (a :: b :: text))
  | text => .ok (ofPath text)

/-- The value of an option. The first of several counts. -/
def option? (u : FileUri) (name : String) : Option Bytes :=
  Assoc.find? (Bytes.ofText name) u.options

/-- The number that a value begins with, in decimal or after `0x` in hexadecimal digits. A number
of more than 31 bits counts as zero. -/
def leadingNumber (value : Bytes) : Nat :=
  let number :=
    match value with
    | zero :: x :: digits =>
        if zero = 0x30 ∧ (x = 0x78 ∨ x = 0x58) ∧ (digits.head?.bind Hex.digitValue?).isSome then
          ((digits.map Hex.digitValue?).takeWhile Option.isSome).foldl
            (fun n digit => 16 * n + digit.getD 0) 0
        else decimal value
    | _ => decimal value
  if number < Nat.pow 2 31 then number else 0
where
  decimal (digits : Bytes) : Nat :=
    (digits.takeWhile fun b => 0x30 ≤ b && b ≤ 0x39).foldl
      (fun n b => 10 * n + (b.toNat - 0x30)) 0

/-- Whether an option is switched on: by a word, or by a number whose last eight bits are not all
zero. -/
def isOn (u : FileUri) (name : String) : Bool :=
  match u.option? name with
  | none => false
  | some value =>
      (Utf8.decodeLenient value).map Char.toLower ∈ ["on", "yes", "true"] ||
        leadingNumber value % 256 ≠ 0

end FileUri

end KeyedBlocks
