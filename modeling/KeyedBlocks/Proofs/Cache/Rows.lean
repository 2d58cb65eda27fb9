import KeyedBlocks.Proofs.Cache.Entries
import KeyedBlocks.Proofs.Recency.Ordered
import Mathlib.Algebra.GroupWithZero.Nat

/-!
The held values of a read cache as a list, from the least to the most recently used. The entries and
the record of their uses are two views of that list, and the bytes are its lengths, summed. A
look-up moves an entry to the end or takes it away, and room is made by dropping entries from the
front, no more of them than it takes.
-/
namespace KeyedBlocks

namespace Assoc

variable {κ ν : Type} [DecidableEq κ] {entries : List (κ × ν)} {key : κ} {value : ν}

/-- Among entries of different keys, one stands between those that are left when it is erased. -/
theorem split_of_mem (hkeys : (entries.map Prod.fst).Nodup) (hmem : (key, value) ∈ entries) :
    ∃ front back, entries = front ++ (key, value) :: back ∧ erase key entries = front ++ back := by
  obtain ⟨front, back, rfl⟩ := List.append_of_mem hmem
  rw [List.map_append, List.map_cons, List.nodup_middle, List.nodup_cons, List.mem_append,
    not_or] at hkeys
  obtain ⟨⟨hfront, hback⟩, _⟩ := hkeys
  refine ⟨front, back, rfl, ?_⟩
  have hself : erase key ((key, value) :: back) = erase key back :=
    List.filter_cons_of_neg (by simp)
  rw [erase, List.filter_append, ← erase, ← erase, hself, erase_of_absent hfront,
    erase_of_absent hback]

end Assoc

namespace Held

variable {κ : Type}

def use (row : κ × HeldValue) : Nat × κ := (row.2.stamp, row.1)

def total (rows : List (κ × HeldValue)) : Nat := (rows.map fun row => row.2.value.length).sum

theorem total_append (front back : List (κ × HeldValue)) :
    total (front ++ back) = total front + total back := by
  rw [total, List.map_append, List.sum_append, total, total]

theorem total_cons (key : κ) (entry : HeldValue) (rows : List (κ × HeldValue)) :
    total ((key, entry) :: rows) = entry.value.length + total rows := by
  rw [total, List.map_cons, List.sum_cons, total]

/-- The rows are the entries in the order of their stamps, whatever order is on record. -/
structure Filed (h : Held κ) (rows : List (κ × HeldValue)) : Prop where
  entries : h.entries.Perm rows
  keys : (rows.map Prod.fst).Nodup
  stamps : rows.Pairwise fun row later => row.2.stamp < later.2.stamp
  bounded : ∀ row ∈ rows, row.2.stamp ≤ h.recency.lastStamp
  counted : h.bytes = total rows

/-- The rows are the entries in the order in which they were last used. -/
structure Ordered (h : Held κ) (rows : List (κ × HeldValue)) : Prop extends Filed h rows where
  order : h.recency.order = rows.map use

def place [DecidableEq κ] (h : Held κ) (key : κ) (value : Bytes) (expiresAt : Nat) : Held κ :=
  { entries := Assoc.insert key ⟨value, expiresAt, h.recency.nextStamp⟩ h.entries
    recency := h.recency.push key
    bytes := h.bytes + value.length }

/-- What is there after everything was dropped, at whatever stamp. -/
theorem ordered_nil (r : Recency κ) : Ordered ⟨[], r.clear, 0⟩ [] where
  entries := List.Perm.nil
  keys := List.nodup_nil
  stamps := List.Pairwise.nil
  bounded _ hmem := absurd hmem List.not_mem_nil
  counted := rfl
  order := rfl

variable [DecidableEq κ] {h : Held κ} {rows : List (κ × HeldValue)} {key : κ}
  {entry : HeldValue}

theorem Filed.find?_eq (hrows : h.Filed rows) (key : κ) : h.find? key = Assoc.find? key rows :=
  Assoc.find?_perm hrows.entries hrows.keys key

theorem Filed.absent (hrows : h.Filed rows) (hnone : h.find? key = none) :
    key ∉ rows.map Prod.fst := by
  intro hmem
  obtain ⟨⟨_, entry⟩, hrow, rfl⟩ := List.mem_map.1 hmem
  rw [hrows.find?_eq, Assoc.find?_eq_none_iff] at hnone
  exact hnone entry hrow

theorem Filed.mem (hrows : h.Filed rows) (hfind : h.find? key = some entry) :
    (key, entry) ∈ rows :=
  Assoc.mem_of_find?_eq_some (hrows.find?_eq key ▸ hfind)

/-- The bytes of an entry are among those counted. -/
theorem Filed.length_le (hrows : h.Filed rows) (hfind : h.find? key = some entry) :
    entry.value.length ≤ h.bytes := by
  obtain ⟨front, back, hsplit, _⟩ := Assoc.split_of_mem hrows.keys (hrows.mem hfind)
  rw [hrows.counted, hsplit, total_append, total_cons]
  omega

/-- Without one entry, and without its bytes, the others are as they were. -/
theorem Filed.erase (hrows : h.Filed rows) (hfind : h.find? key = some entry) {r : Recency κ}
    (hstamp : r.lastStamp = h.recency.lastStamp) :
    Filed ⟨Assoc.erase key h.entries, r, h.bytes - entry.value.length⟩ (Assoc.erase key rows) := by
  have hsub : (Assoc.erase key rows).Sublist rows := List.filter_sublist
  refine ⟨hrows.entries.filter _, hrows.keys.sublist (hsub.map _), hrows.stamps.sublist hsub, ?_,
    ?_⟩
  · intro row hmem
    rw [hstamp]
    exact hrows.bounded row (hsub.subset hmem)
  · obtain ⟨front, back, hsplit, herase⟩ := Assoc.split_of_mem hrows.keys (hrows.mem hfind)
    have hcounted := hrows.counted
    rw [hsplit, total_append, total_cons] at hcounted
    show h.bytes - entry.value.length = _
    rw [herase, total_append]
    omega

theorem Filed.erase_first {row : κ × HeldValue} (hrows : h.Filed (row :: rows)) :
    Filed { h with
      entries := Assoc.erase row.1 h.entries
      bytes := h.bytes - row.2.value.length } rows := by
  have hfind : h.find? row.1 = some row.2 := (hrows.find?_eq row.1).trans (if_pos rfl)
  have hrest : Assoc.erase row.1 (row :: rows) = rows := by
    rw [Assoc.erase, List.filter_cons_of_neg (by simp)]
    exact Assoc.erase_of_absent (List.nodup_cons.1 hrows.keys).1
  exact hrest ▸ hrows.erase hfind rfl

theorem remove_bytes_le (h : Held κ) (key : κ) : (h.remove key).bytes ≤ h.bytes := by
  unfold Held.remove
  split
  · exact Nat.le_refl _
  · exact Nat.sub_le ..

/-- Stamps tell rows apart, so that striking the use of an entry strikes no other. -/
theorem Ordered.strike (hrows : h.Ordered rows) (hfind : h.find? key = some entry) :
    (h.recency.strike entry.stamp).order = (Assoc.erase key rows).map use := by
  have hrow := hrows.mem hfind
  have hstamps : (rows.map fun row => row.2.stamp).Nodup :=
    List.pairwise_map.2 (hrows.stamps.imp Nat.ne_of_lt)
  have hsame : ∀ row ∈ rows, row.2.stamp = entry.stamp ↔ row.1 = key := by
    intro row hmem
    constructor
    · intro hstamp
      rw [List.inj_on_of_nodup_map hstamps hmem hrow hstamp]
    · intro hkey
      rw [List.inj_on_of_nodup_map hrows.keys hmem hrow hkey]
  simp only [Recency.strike, hrows.order, Assoc.erase, List.filter_map]
  refine congrArg _ (List.filter_congr fun row hmem => ?_)
  simp [use, hsame row hmem]

/-- The stamp on record for a key is the stamp of its entry. -/
theorem Ordered.mem_order (hrows : h.Ordered rows) {stamp : Nat} :
    (stamp, key) ∈ h.recency.order ↔ ∃ entry, h.find? key = some entry ∧ entry.stamp = stamp := by
  rw [hrows.order]
  constructor
  · intro hmem
    obtain ⟨⟨key, entry⟩, hrow, huse⟩ := List.mem_map.1 hmem
    obtain ⟨rfl, rfl⟩ := Prod.mk.inj huse
    exact ⟨entry, (hrows.find?_eq key).trans (Assoc.find?_eq_some_of_mem hrows.keys hrow), rfl⟩
  · rintro ⟨entry, hfind, rfl⟩
    exact List.mem_map.2 ⟨(key, entry), hrows.mem hfind, rfl⟩

omit [DecidableEq κ] in
theorem Ordered.recency_keys (hrows : h.Ordered rows) : h.recency.keys = rows.map Prod.fst := by
  rw [Recency.keys, hrows.order, List.map_map]
  rfl

theorem Ordered.remove (hrows : h.Ordered rows) (key : κ) :
    (h.remove key).Ordered (Assoc.erase key rows) := by
  unfold Held.remove
  cases hfind : h.find? key with
  | none =>
    rw [Assoc.erase_of_absent (hrows.absent hfind)]
    exact hrows
  | some entry => exact ⟨hrows.toFiled.erase hfind rfl, hrows.strike hfind⟩

theorem Ordered.place (hrows : h.Ordered rows) (habsent : key ∉ rows.map Prod.fst)
    (value : Bytes) (expiresAt : Nat) :
    (h.place key value expiresAt).Ordered
      (rows ++ [(key, ⟨value, expiresAt, h.recency.nextStamp⟩)]) := by
  have hentries : key ∉ h.entries.map Prod.fst := fun hmem =>
    habsent ((hrows.entries.map Prod.fst).mem_iff.1 hmem)
  refine ⟨⟨?_, ?_, ?_, ?_, ?_⟩, ?_⟩
  · simp only [Held.place, Assoc.insert, Assoc.erase_of_absent hentries]
    exact hrows.entries.append_right _
  · rw [List.map_append, List.nodup_append]
    refine ⟨hrows.keys, by simp, ?_⟩
    rintro other hother _ hlast rfl
    obtain rfl : other = key := List.mem_singleton.1 hlast
    exact habsent hother
  · refine List.pairwise_append.2 ⟨hrows.stamps, List.pairwise_singleton _ _, ?_⟩
    intro row hrow later hlater
    obtain rfl := List.mem_singleton.1 hlater
    exact Nat.lt_succ_of_le (hrows.bounded row hrow)
  · intro row hrow
    rcases List.mem_append.1 hrow with hold | hnew
    · exact Nat.le_succ_of_le (hrows.bounded row hold)
    · obtain rfl := List.mem_singleton.1 hnew
      exact Nat.le_refl _
  · show h.bytes + value.length = _
    rw [hrows.counted, total_append]
    rfl
  · simp [Held.place, Recency.push, hrows.order, use]

/-- A live entry that is looked up is taken away and placed at the end again. -/
theorem Filed.lookup_live (hrows : h.Filed rows) (hfind : h.find? key = some entry) {now : Nat}
    (hlive : now < entry.expiresAt) :
    h.lookup now key =
      (some entry.value, (h.remove key).place key entry.value entry.expiresAt) := by
  have hagain : Assoc.erase key (Assoc.erase key h.entries) = Assoc.erase key h.entries :=
    Assoc.erase_of_absent (Assoc.key_not_mem_erase key h.entries)
  have hbytes := Nat.sub_add_cancel (hrows.length_le hfind)
  simp only [lookup, Held.remove, hfind, Nat.not_le.2 hlive, if_false, Held.place, Assoc.insert,
    hagain, hbytes]

theorem Ordered.lookup (hrows : h.Ordered rows) (now : Nat) (key : κ) :
    ∃ next, (h.lookup now key).2.Ordered next ∧ (h.lookup now key).2.bytes ≤ h.bytes := by
  cases hfind : h.find? key with
  | none =>
    have hsame : h.lookup now key = (none, h) := by simp only [Held.lookup, hfind]
    rw [hsame]
    exact ⟨rows, hrows, Nat.le_refl _⟩
  | some entry =>
    by_cases hlive : now < entry.expiresAt
    · rw [hrows.lookup_live hfind hlive]
      refine ⟨_, (hrows.remove key).place (Assoc.key_not_mem_erase key rows) _ _, ?_⟩
      have hlength := hrows.length_le hfind
      simp only [Held.place, Held.remove, hfind]
      omega
    · have hexpired : h.lookup now key = (none, h.remove key) := by
        simp only [Held.lookup, hfind, Nat.not_lt.1 hlive, if_true]
      rw [hexpired]
      exact ⟨_, hrows.remove key, h.remove_bytes_le key⟩

/-- Room is made from the front: the entries behind it stay, there is room then, and with one
dropped entry less there would not have been. -/
theorem Filed.dropUntil (hrows : h.Filed rows) {need limit : Nat} (hneed : need ≤ limit) :
    ∃ count left, dropUntil need limit (rows.map use) h = (count, left) ∧
      left.Ordered (rows.drop count) ∧ left.recency.lastStamp = h.recency.lastStamp ∧
      left.bytes + need ≤ limit ∧
      ∀ fewer < count, limit < total (rows.drop fewer) + need := by
  induction rows generalizing h with
  | nil =>
    refine ⟨0, _, rfl, ⟨⟨hrows.entries, hrows.keys, hrows.stamps, hrows.bounded, hrows.counted⟩,
      rfl⟩, rfl, ?_, fun _ hfewer => absurd hfewer (Nat.not_lt_zero _)⟩
    have hempty : h.bytes = 0 := hrows.counted
    show h.bytes + need ≤ limit
    omega
  | cons row rows ih =>
    obtain ⟨key, entry⟩ := row
    simp only [List.map_cons, use, Held.dropUntil]
    by_cases hroom : h.bytes + need ≤ limit
    · rw [if_pos hroom]
      exact ⟨0, _, rfl, ⟨⟨hrows.entries, hrows.keys, hrows.stamps, hrows.bounded, hrows.counted⟩,
        rfl⟩, rfl, hroom, fun _ hfewer => absurd hfewer (Nat.not_lt_zero _)⟩
    · have hfind : h.find? key = some entry :=
        (hrows.find?_eq key).trans (if_pos rfl)
      obtain ⟨count, left, hdrop, hleft, hstamp, hfits, hfewer⟩ := ih hrows.erase_first
      rw [if_neg hroom, hfind]
      refine ⟨count + 1, left, by simp only [hdrop], hleft, hstamp, hfits, ?_⟩
      rintro (_ | fewer) hless
      · have hcounted := hrows.counted
        show limit < total ((key, entry) :: rows) + need
        omega
      · exact hfewer fewer (Nat.lt_of_succ_lt_succ hless)

/-- A value that is short enough is placed behind what is left of the other entries. -/
theorem Ordered.insert (hrows : h.Ordered rows) {value : Bytes} {limit : Nat}
    (hshort : value.length ≤ limit) (key : κ) (expiresAt : Nat) :
    ∃ count stamp, (h.insert key value expiresAt limit).1 = count ∧
      (h.insert key value expiresAt limit).2.Ordered
        ((Assoc.erase key rows).drop count ++ [(key, ⟨value, expiresAt, stamp⟩)]) ∧
      (h.insert key value expiresAt limit).2.bytes ≤ limit ∧
      ∀ fewer < count, limit < total ((Assoc.erase key rows).drop fewer) + value.length := by
  have hremoved := hrows.remove key
  obtain ⟨count, left, hdrop, hleft, _, hfits, hfewer⟩ := hremoved.toFiled.dropUntil hshort
  have hinsert : h.insert key value expiresAt limit =
      (count, left.place key value expiresAt) := by
    simp only [Held.insert, makeRoom, hremoved.order, hdrop, Held.place]
  have habsent : key ∉ ((Assoc.erase key rows).drop count).map Prod.fst := by
    intro hmem
    exact Assoc.key_not_mem_erase key rows (((List.drop_sublist ..).map _).subset hmem)
  rw [hinsert]
  exact ⟨count, _, rfl, hleft.place habsent value expiresAt, hfits, hfewer⟩

end Held

end KeyedBlocks
