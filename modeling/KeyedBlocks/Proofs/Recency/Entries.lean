import KeyedBlocks.RecencyMap

/-!
What a bounded map holds after an insertion: the new entry, and of the old entries those that were
not driven out.
-/
namespace KeyedBlocks.RecencyMap

variable {κ ν : Type} [DecidableEq κ] {m : RecencyMap κ ν}

theorem peek_popOldest {key : κ} {value : ν}
    (h : m.popOldest.1.peek key = some value) : m.peek key = some value := by
  unfold popOldest at h
  split at h
  · exact h
  · rename_i oldest _ _
    by_cases hkey : key = oldest
    · subst hkey
      simp [peek, slot?] at h
    · simpa [peek, slot?, Assoc.find?_erase_of_ne hkey] using h

/-- What is in a bounded map after an insertion was inserted now or was there before. -/
theorem peek_insert {key other : κ} {value new : ν}
    (h : (m.insert key new).1.peek other = some value) :
    (other = key ∧ value = new) ∨ m.peek other = some value := by
  have hplace : ∀ base : RecencyMap κ ν, (base.place key new).peek other = some value →
      (other = key ∧ value = new) ∨ base.peek other = some value := by
    intro base hbase
    by_cases hkey : other = key
    · subst hkey
      have hnew : new = value := by simpa [peek, slot?, place] using hbase
      exact Or.inl ⟨rfl, hnew.symm⟩
    · refine Or.inr ?_
      simpa [peek, slot?, place, Assoc.find?_insert_of_ne hkey] using hbase
  unfold insert at h
  split at h
  · exact hplace _ h
  · split at h
    · exact (hplace _ h).imp_right peek_popOldest
    · exact hplace m h

theorem peek_of_mem_toList {key : κ} {value : ν} (h : (key, value) ∈ m.toList) :
    m.peek key = some value := by
  simp only [toList, List.mem_filterMap, Option.map_eq_some_iff, Prod.mk.injEq] at h
  obtain ⟨_, _, found, hpeek, rfl, rfl⟩ := h
  exact hpeek

end KeyedBlocks.RecencyMap
