/-!
The order in which keys were last used. Every use is stamped with a number higher than all before
it, so the list of stamped keys runs from the least to the most recently used.
-/
namespace KeyedBlocks

structure Recency (κ : Type) where
  order : List (Nat × κ)
  lastStamp : Nat
  deriving DecidableEq, Repr

namespace Recency

variable {κ : Type}

def empty : Recency κ := ⟨[], 0⟩

def nextStamp (r : Recency κ) : Nat := r.lastStamp + 1

/-- Record a use of `key`, under the next stamp. -/
def push (r : Recency κ) (key : κ) : Recency κ :=
  ⟨r.order ++ [(r.nextStamp, key)], r.nextStamp⟩

def skip (r : Recency κ) : Recency κ := { r with lastStamp := r.nextStamp }

def strike (r : Recency κ) (stamp : Nat) : Recency κ :=
  { r with order := r.order.filter fun use => use.1 ≠ stamp }

/-- Strike all uses; stamps go on from where they were. -/
def clear (r : Recency κ) : Recency κ := { r with order := [] }

/-- The keys from the least to the most recently used. -/
def keys (r : Recency κ) : List κ := r.order.map Prod.snd

end Recency

end KeyedBlocks
