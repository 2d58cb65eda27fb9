import KeyedBlocks.Proofs.Recency.Ordered
import Mathlib.Data.List.Dedup
import Mathlib.Data.List.DropRight
import Mathlib.Data.List.Induction

/-!
What a bounded map holds after a run of insertions. Of the keys that were inserted it has those
whose last insertions are the latest, as many as there is room for, each with the value inserted
last. A key that is no more there was handed back when it was driven out.
-/
namespace KeyedBlocks

/-- The last keys of a list, as many as given, where keys count by their last places. -/
def recent {κ : Type} [DecidableEq κ] (capacity : Nat) (keys : List κ) : List κ :=
  keys.dedup.rtake capacity

section Lists

variable {α β : Type}

theorem map_rtake (f : α → β) (l : List α) (n : Nat) : (l.rtake n).map f = (l.map f).rtake n := by
  simp [List.rtake, List.map_drop]

theorem rtake_eq_self {l : List α} {n : Nat} (h : l.length ≤ n) : l.rtake n = l := by
  rw [List.rtake, Nat.sub_eq_zero_of_le h, List.drop_zero]

theorem rtake_append {front back : List α} {n : Nat} (h : n ≤ back.length) :
    (front ++ back).rtake n = back.rtake n := by
  have hdrop : (front ++ back).length - n = front.length + (back.length - n) := by
    rw [List.length_append]
    omega
  rw [List.rtake, hdrop, List.drop_append, List.drop_of_length_le (by omega),
    Nat.add_sub_cancel_left, List.nil_append, List.rtake]

/-- One more element comes last, and its earlier places count no more. -/
theorem dedup_concat [DecidableEq α] (l : List α) (a : α) :
    (l ++ [a]).dedup = (l.dedup.filter fun x => x ≠ a) ++ [a] := by
  induction l with
  | nil => rfl
  | cons x l ih =>
    rw [List.cons_append]
    by_cases hmem : x ∈ l
    · rw [List.dedup_cons_of_mem (List.mem_append_left _ hmem), List.dedup_cons_of_mem hmem, ih]
    · rw [List.dedup_cons_of_notMem hmem]
      by_cases hlast : x = a
      · subst hlast
        rw [List.dedup_cons_of_mem (List.mem_append_right _ (List.mem_singleton_self x)), ih]
        simp
      · have hnot : x ∉ l ++ [a] := by simp [hmem, hlast]
        rw [List.dedup_cons_of_notMem hnot, ih]
        simp [hlast]

end Lists

namespace Assoc

variable {κ ν : Type} [DecidableEq κ] {pairs entries : List (κ × ν)}

/-- The finite map of pairs that are written one after the other. -/
def ofList (pairs : List (κ × ν)) : List (κ × ν) :=
  pairs.foldl (fun all pair => insert pair.1 pair.2 all) []

theorem ofList_concat (pairs : List (κ × ν)) (key : κ) (value : ν) :
    ofList (pairs ++ [(key, value)]) = insert key value (ofList pairs) :=
  List.foldl_append

theorem mem_of_mem_ofList {entry : κ × ν} (h : entry ∈ ofList pairs) : entry ∈ pairs := by
  induction pairs using List.reverseRecOn with
  | nil => exact h
  | append_singleton pairs pair ih =>
    rw [ofList_concat] at h
    rcases List.mem_append.1 h with hold | hnew
    · exact List.mem_append_left _ (ih (List.mem_of_mem_filter hold))
    · exact List.mem_append_right _ hnew

theorem map_fst_erase (key : κ) (entries : List (κ × ν)) :
    (erase key entries).map Prod.fst = (entries.map Prod.fst).filter fun other => other ≠ key := by
  rw [erase, List.filter_map]
  rfl

theorem ofList_keys (pairs : List (κ × ν)) :
    (ofList pairs).map Prod.fst = (pairs.map Prod.fst).dedup := by
  induction pairs using List.reverseRecOn with
  | nil => rfl
  | append_singleton pairs pair ih =>
    obtain ⟨key, value⟩ := pair
    rw [ofList_concat, insert, List.map_append, map_fst_erase, ih, List.map_append]
    exact (dedup_concat _ key).symm

theorem ofList_keys_nodup (pairs : List (κ × ν)) : ((ofList pairs).map Prod.fst).Nodup := by
  rw [ofList_keys]
  exact List.nodup_dedup _

theorem length_le_erase (key : κ) (hkeys : (entries.map Prod.fst).Nodup) :
    entries.length ≤ (erase key entries).length + 1 := by
  have hlength : (entries.map Prod.fst).length - 1 ≤ ((entries.map Prod.fst).erase key).length :=
    List.le_length_erase
  have hfilter : (entries.map Prod.fst).erase key = (erase key entries).map Prod.fst := by
    rw [hkeys.erase_eq_filter, map_fst_erase]
    refine List.filter_congr fun other _ => ?_
    rw [Bool.eq_iff_iff]
    simp
  rw [hfilter, List.length_map, List.length_map] at hlength
  omega

/-- A write takes no key away. -/
theorem mem_keys_insert {key other : κ} {value : ν} (h : other ∈ entries.map Prod.fst) :
    other ∈ (insert key value entries).map Prod.fst := by
  rw [insert, List.map_append, map_fst_erase]
  by_cases hkey : other = key
  · subst hkey
    exact List.mem_append_right _ (List.mem_singleton_self other)
  · exact List.mem_append_left _ (List.mem_filter.2 ⟨h, by simpa using hkey⟩)

/-- What was left out of the last entries does not matter to the last entries after a write. -/
theorem insert_rtake (key : κ) (value : ν) (hkeys : (entries.map Prod.fst).Nodup) (capacity : Nat) :
    (insert key value (entries.rtake capacity)).rtake capacity =
      (insert key value entries).rtake capacity := by
  rcases Nat.le_total entries.length capacity with hfits | hmore
  · rw [rtake_eq_self hfits]
  · have hsplit : entries = entries.take (entries.length - capacity) ++ entries.rtake capacity :=
      (List.take_append_drop _ _).symm
    have hlength : (entries.rtake capacity).length = capacity := by
      rw [List.rtake, List.length_drop]
      omega
    have hlast : ((entries.rtake capacity).map Prod.fst).Nodup :=
      hkeys.sublist ((List.drop_sublist _ _).map _)
    have hshort := length_le_erase key hlast
    have herase : insert key value entries =
        erase key (entries.take (entries.length - capacity)) ++
          insert key value (entries.rtake capacity) := by
      rw [insert, insert, ← List.append_assoc]
      congr 1
      conv_lhs => rw [hsplit]
      exact List.filter_append ..
    rw [herase, rtake_append]
    rw [insert, List.length_append, List.length_singleton]
    omega

end Assoc

namespace RecencyMap

variable {κ ν : Type} [DecidableEq κ] {m : RecencyMap κ ν} {pairs : List (κ × ν)}

/-- After an insertion a map holds the last entries, of all that it would hold if it had room. -/
theorem Sound.toList_insert (h : m.Sound) (key : κ) (value : ν) :
    (m.insert key value).1.toList = (Assoc.insert key value m.toList).rtake m.capacity := by
  obtain ⟨hsound, hinsertion⟩ := h.insert key value
  have hlength := hsound.length_le
  rw [m.insert_capacity] at hlength
  generalize (m.insert key value).1 = next at hlength hinsertion ⊢
  generalize (m.insert key value).2 = dropped at hinsertion
  cases hinsertion with
  | fits _ hentries =>
    rw [hentries] at hlength ⊢
    exact (rtake_eq_self hlength).symm
  | @evicts first rest habsent hfull hbefore hentries =>
    have hinsert : Assoc.insert key value m.toList = [first] ++ (rest ++ [(key, value)]) := by
      rw [Assoc.insert, Assoc.erase_of_absent habsent, hbefore]
      rfl
    have hcapacity : (rest ++ [(key, value)]).length = m.capacity := by
      rw [← hfull, hbefore, List.length_append]
      rfl
    rw [hentries, hinsert, rtake_append (Nat.le_of_eq hcapacity.symm),
      rtake_eq_self (Nat.le_of_eq hcapacity)]

/-- A key that was there and is so no more was handed back. -/
theorem Sound.evicted (h : m.Sound) {key other : κ} {value : ν}
    (hold : other ∈ m.toList.map Prod.fst)
    (hgone : other ∉ (m.insert key value).1.toList.map Prod.fst) :
    ∃ old, (m.insert key value).2 = some (other, old) := by
  obtain ⟨_, hinsertion⟩ := h.insert key value
  generalize (m.insert key value).1 = next at hgone hinsertion
  generalize (m.insert key value).2 = dropped at hinsertion ⊢
  cases hinsertion with
  | fits _ hentries =>
    refine absurd ?_ hgone
    rw [hentries]
    exact Assoc.mem_keys_insert hold
  | @evicts first rest habsent hfull hbefore hentries =>
    rw [hbefore, List.map_cons] at hold
    rcases List.mem_cons.1 hold with rfl | hrest
    · exact ⟨first.2, rfl⟩
    · refine absurd ?_ hgone
      rw [hentries, List.map_append]
      exact List.mem_append_left _ hrest

theorem Sound.mem_keys_insert (h : m.Sound) (key : κ) (value : ν) :
    key ∈ (m.insert key value).1.toList.map Prod.fst := by
  obtain ⟨_, hinsertion⟩ := h.insert key value
  generalize (m.insert key value).1 = next at hinsertion ⊢
  generalize (m.insert key value).2 = dropped at hinsertion
  cases hinsertion with
  | fits _ hentries => simp [hentries, Assoc.insert]
  | evicts _ _ _ hentries => simp [hentries]

/-- The map holds what is left of pairs that were inserted one after the other since it was empty.
-/
structure Recalls (m : RecencyMap κ ν) (pairs : List (κ × ν)) : Prop where
  sound : m.Sound
  entries : m.toList = (Assoc.ofList pairs).rtake m.capacity

omit [DecidableEq κ] in
theorem toList_of_no_use [DecidableEq κ] (h : m.recency.order = []) : m.toList = [] := by
  rw [toList, Recency.keys, h]
  rfl

theorem recalls_create {capacity : Nat} (hcreate : create capacity = .ok m) : m.Recalls [] := by
  obtain ⟨hsound, _, rfl⟩ := sound_create hcreate
  exact ⟨hsound, (toList_of_no_use rfl).trans (List.rtake_nil _).symm⟩

theorem Sound.recalls_clear (h : m.Sound) : m.clear.Recalls [] :=
  ⟨h.clear, (toList_of_no_use rfl).trans (List.rtake_nil _).symm⟩

theorem Recalls.insert (h : m.Recalls pairs) (key : κ) (value : ν) :
    (m.insert key value).1.Recalls (pairs ++ [(key, value)]) where
  sound := (h.sound.insert key value).1
  entries := by
    rw [h.sound.toList_insert, m.insert_capacity, h.entries, Assoc.ofList_concat]
    exact Assoc.insert_rtake key value (Assoc.ofList_keys_nodup pairs) m.capacity

/-- The keys of the map are the last that were inserted. -/
theorem Recalls.keys (h : m.Recalls pairs) :
    m.toList.map Prod.fst = recent m.capacity (pairs.map Prod.fst) := by
  rw [h.entries, map_rtake, Assoc.ofList_keys]
  rfl

end RecencyMap

end KeyedBlocks
