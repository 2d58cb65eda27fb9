import KeyedBlocks.Assoc
import KeyedBlocks.Bytes
import KeyedBlocks.Recency

/-!
The values that a read cache holds. Every value has a time at which it expires and the stamp of
its last use; together the values are kept below a number of bytes by dropping those used least
recently. Expired values stay until they are looked up, replaced or dropped for room.
-/
namespace KeyedBlocks

structure HeldValue where
  value : Bytes
  expiresAt : Nat
  stamp : Nat
  deriving DecidableEq, Repr

structure Held (κ : Type) where
  entries : List (κ × HeldValue)
  recency : Recency κ
  /-- The lengths of the held values, summed. -/
  bytes : Nat
  deriving DecidableEq, Repr

namespace Held

variable {κ : Type} [DecidableEq κ]

def empty : Held κ := ⟨[], .empty, 0⟩

def find? (h : Held κ) (key : κ) : Option HeldValue := Assoc.find? key h.entries

def size (h : Held κ) : Nat := h.entries.length

def remove (h : Held κ) (key : κ) : Held κ :=
  match h.find? key with
  | none => h
  | some entry =>
      { entries := Assoc.erase key h.entries
        recency := h.recency.strike entry.stamp
        bytes := h.bytes - entry.value.length }

/-- Look a key up at the time `now`. A live entry becomes the most recent one and keeps its time of
expiry; an expired one is removed. -/
def lookup (h : Held κ) (now : Nat) (key : κ) : Option Bytes × Held κ :=
  match h.find? key with
  | none => (none, h)
  | some entry =>
      if entry.expiresAt ≤ now then (none, h.remove key)
      else
        let recency := h.recency.strike entry.stamp
        let used := { entry with stamp := recency.nextStamp }
        (some entry.value,
          { h with entries := Assoc.insert key used h.entries, recency := recency.push key })

/-- The live value of a key, which stays as recent as it was. -/
def peek (h : Held κ) (now : Nat) (key : κ) : Option Bytes :=
  match h.find? key with
  | none => none
  | some entry => if now < entry.expiresAt then some entry.value else none

/-- Drop entries, in the order given, until `need` more bytes fit below `limit`; also the number
of entries dropped. -/
def dropUntil (need limit : Nat) : List (Nat × κ) → Held κ → Nat × Held κ
  | [], h => (0, { h with recency := { h.recency with order := [] } })
  | (stamp, key) :: rest, h =>
      if h.bytes + need ≤ limit then
        (0, { h with recency := { h.recency with order := (stamp, key) :: rest } })
      else
        match h.find? key with
        | none => dropUntil need limit rest h
        | some entry =>
            let (dropped, left) := dropUntil need limit rest
              { h with
                entries := Assoc.erase key h.entries
                bytes := h.bytes - entry.value.length }
            (dropped + 1, left)

/-- Drop the entries used least recently until `need` more bytes fit below `limit`. -/
def makeRoom (h : Held κ) (need limit : Nat) : Nat × Held κ :=
  dropUntil need limit h.recency.order h

/-- Hold a value as the most recent entry; also the number of entries dropped to make room. An
older entry of the same key is replaced and not counted. -/
def insert (h : Held κ) (key : κ) (value : Bytes) (expiresAt maxBytes : Nat) : Nat × Held κ :=
  let (dropped, room) := (h.remove key).makeRoom value.length maxBytes
  let entry := ⟨value, expiresAt, room.recency.nextStamp⟩
  (dropped,
    { entries := Assoc.insert key entry room.entries
      recency := room.recency.push key
      bytes := room.bytes + value.length })

/-- The entries from the least to the most recently used. -/
def toList (h : Held κ) : List (κ × Bytes × Nat) :=
  h.recency.keys.filterMap fun key =>
    (h.find? key).map fun entry => (key, entry.value, entry.expiresAt)

end Held

end KeyedBlocks
