/-!
Lists of pairs as finite maps. An entry that is written goes to the end of the list and replaces
any older entry of its key.
-/
namespace KeyedBlocks.Assoc

variable {κ ν : Type} [DecidableEq κ]

def find? (key : κ) : List (κ × ν) → Option ν
  | [] => none
  | (k, v) :: rest => if k = key then some v else find? key rest

def erase (key : κ) (entries : List (κ × ν)) : List (κ × ν) :=
  entries.filter fun entry => entry.1 ≠ key

def insert (key : κ) (value : ν) (entries : List (κ × ν)) : List (κ × ν) :=
  erase key entries ++ [(key, value)]

def contains (key : κ) (entries : List (κ × ν)) : Bool := (find? key entries).isSome

@[simp] theorem find?_nil (key : κ) : find? key ([] : List (κ × ν)) = none := rfl

theorem find?_append (key : κ) (xs ys : List (κ × ν)) :
    find? key (xs ++ ys) = (find? key xs).or (find? key ys) := by
  induction xs with
  | nil => simp
  | cons entry rest ih =>
    obtain ⟨k, v⟩ := entry
    by_cases h : k = key <;> simp [find?, h, ih]

@[simp] theorem find?_erase_self (key : κ) (entries : List (κ × ν)) :
    find? key (erase key entries) = none := by
  induction entries with
  | nil => rfl
  | cons entry rest ih =>
    obtain ⟨k, v⟩ := entry
    by_cases h : k = key
    · simpa [erase, h] using ih
    · simpa [erase, find?, h] using ih

theorem find?_erase_of_ne {key other : κ} (h : other ≠ key) (entries : List (κ × ν)) :
    find? other (erase key entries) = find? other entries := by
  induction entries with
  | nil => rfl
  | cons entry rest ih =>
    obtain ⟨k, v⟩ := entry
    by_cases hk : k = key
    · subst hk
      simpa [erase, find?, Ne.symm h] using ih
    · by_cases ho : k = other <;> simp_all [erase, find?]

@[simp] theorem find?_insert_self (key : κ) (value : ν) (entries : List (κ × ν)) :
    find? key (insert key value entries) = some value := by
  simp [insert, find?_append, find?]

theorem find?_insert_of_ne {key other : κ} (h : other ≠ key) (value : ν)
    (entries : List (κ × ν)) :
    find? other (insert key value entries) = find? other entries := by
  simp [insert, find?_append, find?_erase_of_ne h, find?, Ne.symm h]

theorem mem_of_find?_eq_some {key : κ} {value : ν} {entries : List (κ × ν)}
    (h : find? key entries = some value) : (key, value) ∈ entries := by
  induction entries with
  | nil => simp at h
  | cons entry rest ih =>
    obtain ⟨k, v⟩ := entry
    by_cases hk : k = key
    · simp_all [find?]
    · exact List.mem_cons_of_mem _ (ih (by simpa [find?, hk] using h))

theorem find?_eq_none_iff {key : κ} {entries : List (κ × ν)} :
    find? key entries = none ↔ ∀ value, (key, value) ∉ entries := by
  induction entries with
  | nil => simp
  | cons entry rest ih =>
    obtain ⟨k, v⟩ := entry
    by_cases hk : k = key
    · subst hk
      simp only [find?, if_true, reduceCtorEq, false_iff]
      exact fun h => h v (List.mem_cons_self ..)
    · simp [find?, hk, ih, Ne.symm hk]

theorem find?_eq_some_of_mem {key : κ} {value : ν} {entries : List (κ × ν)}
    (hkeys : (entries.map Prod.fst).Nodup) (h : (key, value) ∈ entries) :
    find? key entries = some value := by
  induction entries with
  | nil => simp at h
  | cons entry rest ih =>
    obtain ⟨k, v⟩ := entry
    obtain ⟨hnot, hrest⟩ := List.nodup_cons.1 hkeys
    rcases List.mem_cons.1 h with heq | hmem
    · simp_all [find?]
    · have hk : k ≠ key := by
        rintro rfl
        exact hnot (List.mem_map.2 ⟨_, hmem, rfl⟩)
      simpa [find?, hk] using ih hrest hmem

@[simp] theorem mem_erase {key other : κ} {value : ν} {entries : List (κ × ν)} :
    (other, value) ∈ erase key entries ↔ other ≠ key ∧ (other, value) ∈ entries := by
  simp [erase, and_comm]

@[simp] theorem mem_insert {key other : κ} {value new : ν} {entries : List (κ × ν)} :
    (other, value) ∈ insert key new entries ↔
      (other = key ∧ value = new) ∨ (other ≠ key ∧ (other, value) ∈ entries) := by
  simp [insert, or_comm]

theorem erase_keys_nodup (key : κ) {entries : List (κ × ν)}
    (h : (entries.map Prod.fst).Nodup) : ((erase key entries).map Prod.fst).Nodup :=
  h.sublist (List.filter_sublist.map Prod.fst)

theorem insert_keys_nodup (key : κ) (value : ν) {entries : List (κ × ν)}
    (h : (entries.map Prod.fst).Nodup) : ((insert key value entries).map Prod.fst).Nodup := by
  simp only [insert, List.map_append, List.map_cons, List.map_nil]
  refine List.nodup_append.2 ⟨erase_keys_nodup key h, by simp, ?_⟩
  intro k hk other hother
  obtain ⟨entry, hentry, rfl⟩ := List.mem_map.1 hk
  obtain rfl : other = key := by simpa using hother
  simpa [erase] using (List.mem_filter.1 hentry).2

end KeyedBlocks.Assoc
