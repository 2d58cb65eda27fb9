import KeyedBlocks.RecencyMap
import Mathlib.Data.List.Nodup

/-!
A bounded map as a list. The entries in the order of their stamps run from the least to the most
recently used. An insertion takes away the entry of its key, if there is one, and otherwise the
first entry of a full map, and puts the new entry at the end.
-/
namespace KeyedBlocks

namespace Assoc

variable {κ ν : Type} [DecidableEq κ] {entries rows : List (κ × ν)} {key : κ}

theorem erase_of_absent (h : key ∉ entries.map Prod.fst) : erase key entries = entries := by
  refine List.filter_eq_self.2 fun entry hmem => ?_
  have hne : entry.1 ≠ key := by
    rintro rfl
    exact h (List.mem_map.2 ⟨entry, hmem, rfl⟩)
  simp [hne]

theorem key_not_mem_erase (key : κ) (entries : List (κ × ν)) :
    key ∉ (erase key entries).map Prod.fst := by
  intro hmem
  obtain ⟨entry, hentry, rfl⟩ := List.mem_map.1 hmem
  exact (mem_erase.1 hentry).1 rfl

theorem mem_keys_iff : key ∈ entries.map Prod.fst ↔ (find? key entries).isSome := by
  rw [← not_iff_not, Bool.not_eq_true, Option.isSome_eq_false_iff, Option.isNone_iff_eq_none,
    find?_eq_none_iff]
  simp

/-- Lists with the same entries answer alike, if no key stands twice. -/
theorem find?_perm (hperm : entries.Perm rows) (hkeys : (rows.map Prod.fst).Nodup) (key : κ) :
    find? key entries = find? key rows := by
  have hkeys' : (entries.map Prod.fst).Nodup := (hperm.map Prod.fst).nodup_iff.2 hkeys
  cases hfind : find? key rows with
  | none =>
    have hnone := find?_eq_none_iff.1 hfind
    exact find?_eq_none_iff.2 fun value hmem => hnone value (hperm.mem_iff.1 hmem)
  | some value =>
    exact find?_eq_some_of_mem hkeys' (hperm.mem_iff.2 (mem_of_find?_eq_some hfind))

end Assoc

namespace RecencyMap

variable {κ ν : Type}

/-- An entry with the stamp of its last use. -/
abbrev Row (κ ν : Type) := κ × ν × Nat

def Row.entry (row : Row κ ν) : κ × ν := (row.1, row.2.1)

/-- The rows are the entries of a map in the order in which they were last used. -/
structure Ordered (m : RecencyMap κ ν) (rows : List (Row κ ν)) : Prop where
  order : m.recency.order = rows.map fun row => (row.2.2, row.1)
  entries : m.entries.Perm rows
  keys : (rows.map Prod.fst).Nodup
  stamps : rows.Pairwise fun row later => row.2.2 < later.2.2
  bounded : ∀ row ∈ rows, row.2.2 ≤ m.recency.lastStamp

theorem ordered_empty (capacity : Nat) : (empty capacity : RecencyMap κ ν).Ordered [] where
  order := rfl
  entries := List.Perm.nil
  keys := List.nodup_nil
  stamps := List.Pairwise.nil
  bounded _ hmem := absurd hmem List.not_mem_nil

theorem ordered_clear (m : RecencyMap κ ν) : m.clear.Ordered [] where
  order := rfl
  entries := List.Perm.nil
  keys := List.nodup_nil
  stamps := List.Pairwise.nil
  bounded _ hmem := absurd hmem List.not_mem_nil

variable [DecidableEq κ] {m : RecencyMap κ ν} {rows : List (Row κ ν)} (h : m.Ordered rows)
include h

theorem Ordered.slot?_eq (key : κ) : m.slot? key = Assoc.find? key rows :=
  Assoc.find?_perm h.entries h.keys key

omit [DecidableEq κ] in
theorem Ordered.size_eq : m.size = rows.length := h.entries.length_eq

theorem Ordered.peek_of_mem {row : Row κ ν} (hmem : row ∈ rows) : m.peek row.1 = some row.2.1 := by
  have hfind : Assoc.find? row.1 rows = some row.2 := Assoc.find?_eq_some_of_mem h.keys hmem
  rw [peek, h.slot?_eq, hfind]
  rfl

omit [DecidableEq κ] in
theorem Ordered.recency_keys : m.recency.keys = rows.map Prod.fst := by
  rw [Recency.keys, h.order, List.map_map]
  rfl

theorem Ordered.toList_eq : m.toList = rows.map Row.entry := by
  have hentry : ∀ row ∈ rows,
      ((fun key => (m.peek key).map (key, ·)) ∘ Prod.fst) row = some row.entry := by
    intro row hmem
    show (m.peek row.1).map (row.1, ·) = _
    rw [h.peek_of_mem hmem]
    rfl
  rw [toList, h.recency_keys, List.filterMap_map, List.filterMap_congr hentry]
  exact congrFun List.filterMap_eq_map rows

/-- A new entry goes to the end. -/
theorem Ordered.place {key : κ} (habsent : key ∉ rows.map Prod.fst) (value : ν) :
    (m.place key value).Ordered (rows ++ [(key, value, m.recency.nextStamp)]) := by
  have hentries : key ∉ m.entries.map Prod.fst := fun hmem =>
    habsent ((h.entries.map Prod.fst).mem_iff.1 hmem)
  refine ⟨?_, ?_, ?_, ?_, ?_⟩
  · simp [RecencyMap.place, Recency.push, h.order]
  · simp only [RecencyMap.place, Assoc.insert, Assoc.erase_of_absent hentries]
    exact h.entries.append_right _
  · rw [List.map_append, List.nodup_append]
    refine ⟨h.keys, by simp, ?_⟩
    rintro other hother _ hlast rfl
    obtain rfl : other = key := List.mem_singleton.1 hlast
    exact habsent hother
  · refine List.pairwise_append.2 ⟨h.stamps, List.pairwise_singleton _ _, ?_⟩
    intro row hrow later hlater
    obtain rfl := List.mem_singleton.1 hlater
    exact Nat.lt_succ_of_le (h.bounded row hrow)
  · intro row hrow
    rcases List.mem_append.1 hrow with hold | hnew
    · exact Nat.le_succ_of_le (h.bounded row hold)
    · obtain rfl := List.mem_singleton.1 hnew
      exact Nat.le_refl _

/-- Striking the use of a key, and dropping its entry, takes away its row. -/
theorem Ordered.erase {key : κ} {value : ν} {stamp : Nat}
    (hslot : m.slot? key = some (value, stamp)) :
    Ordered { m with
        recency := m.recency.strike stamp, entries := Assoc.erase key m.entries }
      (Assoc.erase key rows) := by
  have hrow : (key, value, stamp) ∈ rows :=
    Assoc.mem_of_find?_eq_some (h.slot?_eq key ▸ hslot)
  have hsub : (Assoc.erase key rows).Sublist rows := List.filter_sublist
  -- Keys and stamps tell rows apart, so a row has the stamp just if it has the key.
  have hstamps : (rows.map fun row => row.2.2).Nodup :=
    List.pairwise_map.2 (h.stamps.imp Nat.ne_of_lt)
  have hsame : ∀ row ∈ rows, row.2.2 = stamp ↔ row.1 = key := by
    intro row hmem
    constructor
    · intro hstamp
      rw [List.inj_on_of_nodup_map hstamps hmem hrow hstamp]
    · intro hkey
      rw [List.inj_on_of_nodup_map h.keys hmem hrow hkey]
  refine ⟨?_, h.entries.filter _, h.keys.sublist (hsub.map _), h.stamps.sublist hsub, ?_⟩
  · simp only [Recency.strike, h.order, Assoc.erase, List.filter_map]
    refine congrArg _ (List.filter_congr fun row hmem => ?_)
    simp [hsame row hmem]
  · exact fun row hmem => h.bounded row (hsub.subset hmem)

omit h in
theorem Ordered.popOldest {first : Row κ ν} {rest : List (Row κ ν)}
    (h : m.Ordered (first :: rest)) :
    m.popOldest.2 = some first.entry ∧ m.popOldest.1.Ordered rest := by
  have hpop : m.popOldest = ({ m with
      recency := { m.recency with order := rest.map fun row => (row.2.2, row.1) }
      entries := Assoc.erase first.1 m.entries }, (m.peek first.1).map (first.1, ·)) := by
    simp only [RecencyMap.popOldest, h.order, List.map_cons]
  rw [hpop]
  obtain ⟨hfirst, hkeys⟩ := List.nodup_cons.1 h.keys
  have hrest : Assoc.erase first.1 (first :: rest) = rest := by
    rw [Assoc.erase, List.filter_cons_of_neg (by simp)]
    exact Assoc.erase_of_absent hfirst
  refine ⟨?_, rfl, ?_, hkeys, (List.pairwise_cons.1 h.stamps).2, ?_⟩
  · rw [h.peek_of_mem (List.mem_cons_self ..)]
    rfl
  · exact hrest ▸ h.entries.filter _
  · exact fun row hmem => h.bounded row (List.mem_cons_of_mem _ hmem)

omit h in
theorem popOldest_capacity (m : RecencyMap κ ν) : m.popOldest.1.capacity = m.capacity := by
  unfold popOldest
  split <;> rfl

omit h in
theorem insert_capacity (m : RecencyMap κ ν) (key : κ) (value : ν) :
    (m.insert key value).1.capacity = m.capacity := by
  unfold insert
  split
  · rfl
  · split
    · exact m.popOldest_capacity
    · rfl

/-- A key that is there gets its new value and goes to the end. -/
theorem Ordered.insert_present {key : κ} {old : ν} {stamp : Nat}
    (hslot : m.slot? key = some (old, stamp)) (value : ν) :
    (m.insert key value).2 = none ∧ ∃ latest,
      (m.insert key value).1.Ordered (Assoc.erase key rows ++ [(key, value, latest)]) := by
  have hagain : Assoc.erase key (Assoc.erase key m.entries) = Assoc.erase key m.entries :=
    Assoc.erase_of_absent (Assoc.key_not_mem_erase key m.entries)
  have hinsert : m.insert key value = (RecencyMap.place { m with
      recency := m.recency.strike stamp, entries := Assoc.erase key m.entries } key value,
        none) := by
    simp only [RecencyMap.insert, hslot, RecencyMap.place, Assoc.insert, hagain]
  rw [hinsert]
  exact ⟨rfl, _, (h.erase hslot).place (Assoc.key_not_mem_erase key rows) value⟩

/-- A new key that there is room for goes to the end. -/
theorem Ordered.insert_room {key : κ} (hslot : m.slot? key = none)
    (habsent : key ∉ rows.map Prod.fst) (hroom : m.size < m.capacity) (value : ν) :
    (m.insert key value).2 = none ∧ ∃ latest,
      (m.insert key value).1.Ordered (rows ++ [(key, value, latest)]) := by
  have hinsert : m.insert key value = (m.place key value, none) := by
    simp only [RecencyMap.insert, hslot, Nat.not_le.2 hroom, if_false]
  rw [hinsert]
  exact ⟨rfl, _, h.place habsent value⟩

omit h in
/-- A new key that there is no room for drives the first entry out. -/
theorem Ordered.insert_full {first : Row κ ν} {rest : List (Row κ ν)} {key : κ}
    (h : m.Ordered (first :: rest)) (hslot : m.slot? key = none)
    (habsent : key ∉ rest.map Prod.fst) (hfull : m.capacity ≤ m.size) (value : ν) :
    (m.insert key value).2 = some first.entry ∧ ∃ latest,
      (m.insert key value).1.Ordered (rest ++ [(key, value, latest)]) := by
  have hinsert : m.insert key value = (m.popOldest.1.place key value, m.popOldest.2) := by
    simp only [RecencyMap.insert, hslot, hfull, if_true]
  obtain ⟨hevicted, hpopped⟩ := h.popOldest
  rw [hinsert, hevicted]
  exact ⟨rfl, _, hpopped.place habsent value⟩

omit h

/-- A map that can hold something, holds no more than it can, and has its entries in order. -/
structure Sound (m : RecencyMap κ ν) : Prop where
  positive : 0 < m.capacity
  ordered : ∃ rows, m.Ordered rows ∧ rows.length ≤ m.capacity

omit [DecidableEq κ] in
theorem sound_create {capacity : Nat} (hcreate : create capacity = .ok m) :
    m.Sound ∧ m.capacity = capacity ∧ m = empty capacity := by
  unfold create at hcreate
  split at hcreate
  · cases hcreate
  · rename_i hpositive
    cases hcreate
    exact ⟨⟨Nat.pos_of_ne_zero hpositive, [], ordered_empty capacity, Nat.zero_le _⟩, rfl, rfl⟩

omit [DecidableEq κ] in
theorem Sound.clear (h : m.Sound) : m.clear.Sound :=
  ⟨h.positive, [], m.ordered_clear, Nat.zero_le _⟩

/-- What an insertion does: it finds room, or the first entry has to go. -/
inductive Insertion (m : RecencyMap κ ν) (key : κ) (value : ν) :
    RecencyMap κ ν → Option (κ × ν) → Prop
  | fits {next : RecencyMap κ ν}
      (room : key ∈ m.toList.map Prod.fst ∨ m.toList.length < m.capacity)
      (entries : next.toList = Assoc.insert key value m.toList) : Insertion m key value next none
  | evicts {next : RecencyMap κ ν} {first : κ × ν} {rest : List (κ × ν)}
      (absent : key ∉ m.toList.map Prod.fst) (full : m.toList.length = m.capacity)
      (before : m.toList = first :: rest) (entries : next.toList = rest ++ [(key, value)]) :
      Insertion m key value next (some first)

theorem map_entry_erase (key : κ) (rows : List (Row κ ν)) :
    (Assoc.erase key rows).map Row.entry = Assoc.erase key (rows.map Row.entry) := by
  simp only [Assoc.erase, List.filter_map]
  rfl

theorem Ordered.keys_eq (h : m.Ordered rows) : m.toList.map Prod.fst = rows.map Prod.fst := by
  rw [h.toList_eq, List.map_map]
  rfl

theorem Ordered.length_eq (h : m.Ordered rows) : m.toList.length = rows.length := by
  rw [h.toList_eq, List.length_map]

theorem Sound.keys_nodup (h : m.Sound) : (m.toList.map Prod.fst).Nodup := by
  obtain ⟨rows, hrows, _⟩ := h.ordered
  exact hrows.keys_eq ▸ hrows.keys

theorem Sound.length_le (h : m.Sound) : m.toList.length ≤ m.capacity := by
  obtain ⟨rows, hrows, hlength⟩ := h.ordered
  exact hrows.length_eq ▸ hlength

section Insertion

variable {key : κ} (h : m.Ordered rows) (value : ν)
include h

theorem Ordered.insertion_present (hlength : rows.length ≤ m.capacity)
    (hpresent : key ∈ rows.map Prod.fst) :
    ∃ next, (m.insert key value).1.Ordered next ∧ next.length ≤ m.capacity ∧
      Insertion m key value (m.insert key value).1 (m.insert key value).2 := by
  obtain ⟨⟨found, old, stamp⟩, hrow, hkey⟩ := List.mem_map.1 hpresent
  obtain rfl : found = key := hkey
  have hslot : m.slot? found = some (old, stamp) :=
    (h.slot?_eq found).trans (Assoc.find?_eq_some_of_mem h.keys hrow)
  have hshorter : (Assoc.erase found rows).length < rows.length :=
    List.length_filter_lt_length_iff_exists.2 ⟨_, hrow, by simp⟩
  obtain ⟨hnone, latest, hnext⟩ := h.insert_present hslot value
  refine ⟨_, hnext, ?_, ?_⟩
  · rw [List.length_append, List.length_singleton]
    omega
  · rw [hnone]
    refine .fits (Or.inl (h.keys_eq ▸ hpresent)) ?_
    rw [hnext.toList_eq, h.toList_eq, List.map_append, map_entry_erase]
    rfl

theorem Ordered.insertion_room (hslot : m.slot? key = none) (habsent : key ∉ rows.map Prod.fst)
    (hroom : m.size < m.capacity) :
    ∃ next, (m.insert key value).1.Ordered next ∧ next.length ≤ m.capacity ∧
      Insertion m key value (m.insert key value).1 (m.insert key value).2 := by
  obtain ⟨hnone, latest, hnext⟩ := h.insert_room hslot habsent hroom value
  rw [h.size_eq] at hroom
  refine ⟨_, hnext, ?_, ?_⟩
  · rw [List.length_append]
    exact hroom
  · rw [hnone]
    refine .fits (Or.inr (h.length_eq ▸ hroom)) ?_
    rw [hnext.toList_eq, h.toList_eq, List.map_append, Assoc.insert, ← map_entry_erase,
      Assoc.erase_of_absent habsent]
    rfl

theorem Ordered.insertion_full (hpositive : 0 < m.capacity) (hlength : rows.length ≤ m.capacity)
    (hslot : m.slot? key = none) (habsent : key ∉ rows.map Prod.fst) (hfull : m.capacity ≤ m.size) :
    ∃ next, (m.insert key value).1.Ordered next ∧ next.length ≤ m.capacity ∧
      Insertion m key value (m.insert key value).1 (m.insert key value).2 := by
  have hsize := h.size_eq
  cases rows with
  | nil =>
    simp only [List.length_nil] at hsize
    omega
  | cons first rest =>
    have hrest : key ∉ rest.map Prod.fst := fun hmem => habsent (List.mem_cons_of_mem _ hmem)
    obtain ⟨hevicted, latest, hnext⟩ := h.insert_full hslot hrest hfull value
    rw [hsize] at hfull
    refine ⟨_, hnext, ?_, ?_⟩
    · rw [List.length_append]
      exact hlength
    · rw [hevicted]
      refine .evicts (h.keys_eq ▸ habsent) (h.length_eq.trans (Nat.le_antisymm hlength hfull))
        (h.toList_eq.trans List.map_cons) ?_
      rw [hnext.toList_eq, List.map_append]
      rfl

end Insertion

/-- An insertion keeps a map sound, and does what it should. -/
theorem Sound.insert (h : m.Sound) (key : κ) (value : ν) :
    (m.insert key value).1.Sound ∧
      Insertion m key value (m.insert key value).1 (m.insert key value).2 := by
  obtain ⟨rows, hrows, hlength⟩ := h.ordered
  have hnext : ∃ next, (m.insert key value).1.Ordered next ∧ next.length ≤ m.capacity ∧
      Insertion m key value (m.insert key value).1 (m.insert key value).2 := by
    by_cases hmem : key ∈ rows.map Prod.fst
    · exact hrows.insertion_present value hlength hmem
    · have hslot : m.slot? key = none := by
        rw [hrows.slot?_eq]
        exact Assoc.find?_eq_none_iff.2 fun row hrow => hmem (List.mem_map.2 ⟨_, hrow, rfl⟩)
      rcases Nat.lt_or_ge m.size m.capacity with hroom | hfull
      · exact hrows.insertion_room value hslot hmem hroom
      · exact hrows.insertion_full value h.positive hlength hslot hmem hfull
  obtain ⟨next, hordered, hbound, hinsertion⟩ := hnext
  rw [← m.insert_capacity key value] at hbound
  exact ⟨⟨m.insert_capacity key value ▸ h.positive, next, hordered, hbound⟩, hinsertion⟩

end RecencyMap

end KeyedBlocks
