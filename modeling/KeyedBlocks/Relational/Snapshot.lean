import KeyedBlocks.Relational.Tables
import KeyedBlocks.Text.Parts
import KeyedBlocks.Text.Utf8

/-!
Tables as text, one row a line. A line is a word for its kind and then hexadecimal fields, divided
by single spaces; a table that is there has a line of its own, so that an empty one is not missing.
-/
namespace KeyedBlocks.Snapshot

def heading : String := "keyed blocks 1"

def blockLine (row : Address × Bytes) : String :=
  "block " ++ Hex.encode (Bytes.ofText row.1.text) ++ " " ++ Hex.encode row.2

def preimageLine (row : Bytes × Address) : String :=
  "preimage " ++ Hex.encode row.1 ++ " " ++ Hex.encode (Bytes.ofText row.2.text)

def blockLines : Option (List (Address × Bytes)) → List String
  | none => []
  | some rows => "blocks" :: rows.map blockLine

def preimageLines : PreimageTable → List String
  | .missing => []
  | .foreign => ["foreign"]
  | .rows entries => "preimages" :: entries.map preimageLine

def encode (t : Tables) : String :=
  String.join ((heading :: blockLines t.blocks ++ preimageLines t.preimages).map (· ++ "\n"))

def readBytes? (word : String) : Option Bytes := (Hex.decode word).toOption

def readAddress? (word : String) : Option Address :=
  (readBytes? word).bind fun data => (Utf8.decode data).toOption.map Address.mk

def addLine (t : Tables) (line : String) : Option Tables :=
  match (Parts.splitAt ' ' line.toList).map String.ofList with
  | ["blocks"] => some { t with blocks := some [] }
  | ["preimages"] => some { t with preimages := .rows [] }
  | ["foreign"] => some { t with preimages := .foreign }
  | ["block", a, value] => do
      let a ← readAddress? a
      let value ← readBytes? value
      let rows ← t.blocks
      return { t with blocks := some (rows ++ [(a, value)]) }
  | ["preimage", key, a] => do
      let key ← readBytes? key
      let a ← readAddress? a
      match t.preimages with
      | .rows entries => return { t with preimages := .rows (entries ++ [(key, a)]) }
      | _ => none
  | _ => none

/-- Read tables. An empty text is a database without tables. -/
def decode? (text : String) : Option Tables :=
  match ((Parts.splitAt '\n' text.toList).map String.ofList).filter (· ≠ "") with
  | [] => some .absent
  | first :: lines => if first = heading then lines.foldlM addLine .absent else none

end KeyedBlocks.Snapshot
