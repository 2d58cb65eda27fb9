import KeyedBlocks.Proofs.Cache.Rows

/-!
What a read cache can do to the values that it holds, and that it never takes more bytes off its
count than there are. Where unsigned numbers do not go below zero, a count that is short would be
cut off or would stop the program; here every access is told a second time with subtractions that
fail, and they do not.
-/
namespace KeyedBlocks

/-- A difference of unsigned numbers, if there is one. -/
def checkedSub (a b : Nat) : Option Nat := if b ≤ a then some (a - b) else none

theorem checkedSub_of_le {a b : Nat} (h : b ≤ a) : checkedSub a b = some (a - b) := if_pos h

namespace Held

variable {κ : Type} [DecidableEq κ]

inductive Access (κ : Type)
  | lookup (now : Nat) (key : κ)
  | remove (key : κ)
  | hold (key : κ) (value : Bytes) (expiresAt maxBytes : Nat)
  | clear

def access (h : Held κ) : Access κ → Held κ
  | .lookup now key => (h.lookup now key).2
  | .remove key => h.remove key
  | .hold key value expiresAt maxBytes => (h.insert key value expiresAt maxBytes).2
  | .clear => ⟨[], h.recency.clear, 0⟩

/-- Removal, as long as the bytes of the entry are among those counted. -/
def checkedRemove (h : Held κ) (key : κ) : Option (Held κ) :=
  match h.find? key with
  | none => some h
  | some entry => do
      let bytes ← checkedSub h.bytes entry.value.length
      return {
        entries := Assoc.erase key h.entries
        recency := h.recency.strike entry.stamp
        bytes }

def checkedDropUntil (need limit : Nat) : List (Nat × κ) → Held κ → Option (Held κ)
  | [], h => some { h with recency := { h.recency with order := [] } }
  | (stamp, key) :: rest, h =>
      if h.bytes + need ≤ limit then
        some { h with recency := { h.recency with order := (stamp, key) :: rest } }
      else
        match h.find? key with
        | none => checkedDropUntil need limit rest h
        | some entry => do
            let bytes ← checkedSub h.bytes entry.value.length
            checkedDropUntil need limit rest
              { h with entries := Assoc.erase key h.entries, bytes }

/-- What an access leaves, if no subtraction in it fails. -/
def checkedAccess (h : Held κ) : Access κ → Option (Held κ)
  | .lookup now key =>
      match h.find? key with
      | some entry =>
          if entry.expiresAt ≤ now then h.checkedRemove key else some (h.lookup now key).2
      | none => some h
  | .remove key => h.checkedRemove key
  | .hold key value expiresAt maxBytes => do
      let without ← h.checkedRemove key
      let room ← checkedDropUntil value.length maxBytes without.recency.order without
      return room.place key value expiresAt
  | .clear => some ⟨[], h.recency.clear, 0⟩

variable {h : Held κ} {rows : List (κ × HeldValue)} {key : κ}

theorem Filed.checkedRemove (hrows : h.Filed rows) (key : κ) :
    h.checkedRemove key = some (h.remove key) := by
  unfold Held.checkedRemove Held.remove
  cases hfind : h.find? key with
  | none => rfl
  | some entry =>
    simp only [checkedSub_of_le (hrows.length_le hfind)]
    rfl

theorem Filed.checkedDropUntil (hrows : h.Filed rows) (need limit : Nat) :
    Held.checkedDropUntil need limit (rows.map use) h =
      some (Held.dropUntil need limit (rows.map use) h).2 := by
  induction rows generalizing h with
  | nil => rfl
  | cons row rows ih =>
    obtain ⟨key, entry⟩ := row
    simp only [List.map_cons, use, Held.checkedDropUntil, Held.dropUntil]
    by_cases hroom : h.bytes + need ≤ limit
    · rw [if_pos hroom, if_pos hroom]
    · have hfind : h.find? key = some entry := (hrows.find?_eq key).trans (if_pos rfl)
      have hrest := hrows.erase_first
      rw [if_neg hroom, if_neg hroom, hfind]
      simp only [checkedSub_of_le (hrows.length_le hfind)]
      exact ih hrest

/-- An access keeps within a number of bytes if it makes room below that number, for a value that
fits there. -/
def Access.Within (maxBytes : Nat) : Access κ → Prop
  | .hold _ value _ limit => limit = maxBytes ∧ value.length ≤ maxBytes
  | _ => True

def Sound (maxBytes : Nat) (h : Held κ) : Prop := ∃ rows, h.Ordered rows ∧ h.bytes ≤ maxBytes

omit [DecidableEq κ] in
theorem sound_empty (maxBytes : Nat) : (empty : Held κ).Sound maxBytes :=
  ⟨[], ordered_nil .empty, Nat.zero_le _⟩

/-- An access keeps sound values sound, and takes off no more bytes than there are. -/
theorem Sound.access {maxBytes : Nat} (hsound : h.Sound maxBytes) {a : Access κ}
    (hwithin : a.Within maxBytes) :
    (h.access a).Sound maxBytes ∧ h.checkedAccess a = some (h.access a) := by
  obtain ⟨rows, hrows, hbytes⟩ := hsound
  cases a with
  | lookup now key =>
    constructor
    · obtain ⟨next, hnext, hfewer⟩ := hrows.lookup now key
      exact ⟨next, hnext, Nat.le_trans hfewer hbytes⟩
    · simp only [checkedAccess, Held.access, Held.lookup]
      cases h.find? key with
      | none => rfl
      | some entry =>
        by_cases hlate : entry.expiresAt ≤ now
        · simp only [hlate, if_true]
          exact hrows.checkedRemove key
        · simp only [hlate, if_false]
  | remove key =>
    refine ⟨⟨_, hrows.remove key, ?_⟩, hrows.checkedRemove key⟩
    exact Nat.le_trans (h.remove_bytes_le key) hbytes
  | hold key value expiresAt limit =>
    obtain ⟨rfl, hshort⟩ := hwithin
    constructor
    · obtain ⟨_, _, _, hnext, hfits, _⟩ := hrows.insert hshort key expiresAt
      exact ⟨_, hnext, hfits⟩
    · have hremoved := hrows.remove key
      simp only [checkedAccess, hrows.checkedRemove key, Option.bind_eq_bind, Option.bind_some,
        hremoved.order, hremoved.checkedDropUntil]
      simp only [Held.access, Held.insert, makeRoom, hremoved.order]
      rfl
  | clear => exact ⟨⟨[], ordered_nil h.recency, Nat.zero_le _⟩, rfl⟩

end Held

end KeyedBlocks
