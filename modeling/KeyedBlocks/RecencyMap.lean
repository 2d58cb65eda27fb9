import KeyedBlocks.Assoc
import KeyedBlocks.Error
import KeyedBlocks.Recency

/-!
Maps that hold a bounded number of entries. A new key that does not fit drives out the entry used
least recently, which is handed back to the caller. Every entry carries the stamp of its last use.
-/
namespace KeyedBlocks

structure RecencyMap (κ ν : Type) where
  capacity : Nat
  entries : List (κ × ν × Nat)
  recency : Recency κ
  deriving DecidableEq, Repr

namespace RecencyMap

variable {κ ν : Type} [DecidableEq κ]

def empty (capacity : Nat) : RecencyMap κ ν := ⟨capacity, [], .empty⟩

/-- A map must be able to hold something. -/
def create (capacity : Nat) : Except StoreError (RecencyMap κ ν) :=
  if capacity = 0 then .error (.config "LRU capacity must be positive") else .ok (empty capacity)

def slot? (m : RecencyMap κ ν) (key : κ) : Option (ν × Nat) := Assoc.find? key m.entries

def peek (m : RecencyMap κ ν) (key : κ) : Option ν := (m.slot? key).map Prod.fst

def contains (m : RecencyMap κ ν) (key : κ) : Bool := (m.slot? key).isSome

def size (m : RecencyMap κ ν) : Nat := m.entries.length

def isEmpty (m : RecencyMap κ ν) : Bool := m.entries.isEmpty

def popOldest (m : RecencyMap κ ν) : RecencyMap κ ν × Option (κ × ν) :=
  match m.recency.order with
  | [] => (m, none)
  | (_, key) :: rest =>
      ({ m with recency := { m.recency with order := rest }, entries := Assoc.erase key m.entries },
       (m.peek key).map (key, ·))

def place (m : RecencyMap κ ν) (key : κ) (value : ν) : RecencyMap κ ν :=
  { m with
    recency := m.recency.push key
    entries := Assoc.insert key (value, m.recency.nextStamp) m.entries }

/-- Insert or replace an entry. Only a new key can drive another one out. -/
def insert (m : RecencyMap κ ν) (key : κ) (value : ν) : RecencyMap κ ν × Option (κ × ν) :=
  match m.slot? key with
  | some (_, stamp) => (place { m with recency := m.recency.strike stamp } key value, none)
  | none =>
      if m.capacity ≤ m.size then
        let (rest, evicted) := m.popOldest
        (rest.place key value, evicted)
      else (m.place key value, none)

/-- Look a key up and make it the most recent one. A look-up that finds nothing takes a stamp too.
-/
def get (m : RecencyMap κ ν) (key : κ) : RecencyMap κ ν × Option ν :=
  match m.slot? key with
  | some (value, stamp) =>
      (place { m with recency := m.recency.strike stamp } key value, some value)
  | none => ({ m with recency := m.recency.skip }, none)

def remove (m : RecencyMap κ ν) (key : κ) : RecencyMap κ ν × Option ν :=
  match m.slot? key with
  | some (value, stamp) =>
      ({ m with recency := m.recency.strike stamp, entries := Assoc.erase key m.entries },
       some value)
  | none => (m, none)

def clear (m : RecencyMap κ ν) : RecencyMap κ ν :=
  { m with recency := m.recency.clear, entries := [] }

/-- The entries from the least to the most recently used. -/
def toList (m : RecencyMap κ ν) : List (κ × ν) :=
  m.recency.keys.filterMap fun key => (m.peek key).map (key, ·)

end RecencyMap

end KeyedBlocks
