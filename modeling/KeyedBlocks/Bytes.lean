/-!
Byte strings, and how a separator splits one. Scanning goes from left to right and a separator
that has been met is passed over whole, so occurrences that overlap it are not seen.
-/
namespace KeyedBlocks

/-- Keys, values and encoded addresses are byte strings. -/
abbrev Bytes := List UInt8

namespace Bytes

def ofText (text : String) : Bytes := text.toUTF8.toList

def consHead (b : UInt8) : List Bytes → List Bytes
  | [] => [[b]]
  | part :: parts => (b :: part) :: parts

/-- Split what is left of a byte string; `skip` bytes still belong to the separator just met. -/
def splitFrom (sep : Bytes) : Nat → Bytes → List Bytes
  | _, [] => [[]]
  | skip + 1, _ :: rest => splitFrom sep skip rest
  | 0, b :: rest =>
      if sep.isPrefixOf (b :: rest) then [] :: splitFrom sep (sep.length - 1) rest
      else consHead b (splitFrom sep 0 rest)

/-- The parts of `data` between the occurrences of `sep`. An empty separator never occurs, so the
data is then its own single part. -/
def splitOn (sep data : Bytes) : List Bytes :=
  if sep.isEmpty then [data] else splitFrom sep 0 data

theorem consHead_ne_nil (b : UInt8) (parts : List Bytes) : consHead b parts ≠ [] := by
  cases parts <;> simp [consHead]

theorem splitFrom_ne_nil (sep : Bytes) (skip : Nat) (data : Bytes) :
    splitFrom sep skip data ≠ [] := by
  fun_induction splitFrom sep skip data with
  | case1 => simp
  | case2 _ _ _ ih => exact ih
  | case3 => simp
  | case4 => exact consHead_ne_nil _ _

theorem splitOn_ne_nil (sep data : Bytes) : splitOn sep data ≠ [] := by
  unfold splitOn
  split
  · simp
  · exact splitFrom_ne_nil sep 0 data

end Bytes

end KeyedBlocks
