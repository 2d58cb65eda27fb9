import KeyedBlocks.Bytes

/-!
Keys in the order of their bytes. Sorting keeps exactly the keys that are given and puts none before
a lesser one.
-/
namespace KeyedBlocks.KeyOrder

/-- Put a key in front of the first one that is not less. -/
def insert (key : Bytes) : List Bytes → List Bytes
  | [] => [key]
  | other :: rest => if key ≤ other then key :: other :: rest else other :: insert key rest

def sort : List Bytes → List Bytes
  | [] => []
  | key :: rest => insert key (sort rest)

theorem insert_perm (key : Bytes) (keys : List Bytes) : (insert key keys).Perm (key :: keys) := by
  induction keys with
  | nil => exact List.Perm.refl _
  | cons other rest ih =>
    by_cases h : key ≤ other
    · simp [insert, h]
    · simpa [insert, h] using (ih.cons other).trans (List.Perm.swap key other rest)

theorem sort_perm (keys : List Bytes) : (sort keys).Perm keys := by
  induction keys with
  | nil => exact List.Perm.refl _
  | cons key rest ih => exact (insert_perm key (sort rest)).trans (ih.cons key)

theorem mem_sort {key : Bytes} {keys : List Bytes} : key ∈ sort keys ↔ key ∈ keys :=
  (sort_perm keys).mem_iff

theorem insert_pairwise (key : Bytes) {keys : List Bytes} (h : keys.Pairwise (· ≤ ·)) :
    (insert key keys).Pairwise (· ≤ ·) := by
  induction keys with
  | nil => simp [insert]
  | cons other rest ih =>
    obtain ⟨hother, hrest⟩ := List.pairwise_cons.1 h
    by_cases hk : key ≤ other
    · have hall : ∀ k ∈ other :: rest, key ≤ k := by
        intro k hmem
        rcases List.mem_cons.1 hmem with rfl | hmem
        · exact hk
        · exact List.le_trans hk (hother k hmem)
      simpa [insert, hk] using List.pairwise_cons.2 ⟨hall, h⟩
    · have hle : other ≤ key := (List.le_total key other).resolve_left hk
      have hall : ∀ k ∈ insert key rest, other ≤ k := by
        intro k hmem
        rcases List.mem_cons.1 ((insert_perm key rest).mem_iff.1 hmem) with rfl | hmem
        · exact hle
        · exact hother k hmem
      simpa [insert, hk] using List.pairwise_cons.2 ⟨hall, ih hrest⟩

theorem sort_pairwise (keys : List Bytes) : (sort keys).Pairwise (· ≤ ·) := by
  induction keys with
  | nil => exact List.Pairwise.nil
  | cons key rest ih => exact insert_pairwise key ih

end KeyedBlocks.KeyOrder
