import KeyedBlocks.Proofs.Recency.Recent
import Mathlib.Data.List.Forall2
import Mathlib.Data.List.Pairwise

/-!
What is left of a list when each element replaces those before it that have the same key. A finite
map of pairs, in which a later pair replaces an earlier one of its key, is such a rest.
-/
namespace KeyedBlocks

section Lists

variable {α β κ : Type} [DecidableEq κ] {key : α → κ} {x : α} {all front : List α}

/-- The elements that no later element with the same key replaces. -/
def unreplaced (key : α → κ) (all : List α) : List α :=
  all.pwFilter fun x later => key x ≠ key later

theorem unreplaced_cons_of_later (h : key x ∈ all.map key) :
    unreplaced key (x :: all) = unreplaced key all := by
  apply List.pwFilter_cons_of_neg
  intro hdiffers
  obtain ⟨later, hmem, hkey⟩ := List.mem_map.1 h
  refine (List.forall_mem_pwFilter (R := fun x y => key x ≠ key y) ?_ x all).1 hdiffers later hmem
    hkey.symm
  intro x y z hne
  by_cases hfirst : key x = key y
  · exact Or.inr (hfirst ▸ hne)
  · exact Or.inl hfirst

theorem unreplaced_cons_of_last (h : key x ∉ all.map key) :
    unreplaced key (x :: all) = x :: unreplaced key all := by
  apply List.pwFilter_cons_of_pos
  intro later hmem hkey
  exact h (List.mem_map.2 ⟨later, List.pwFilter_subset all hmem, hkey.symm⟩)

/-- One more element replaces those with its key and comes last. -/
theorem unreplaced_concat (key : α → κ) (all : List α) (x : α) :
    unreplaced key (all ++ [x]) =
      ((unreplaced key all).filter fun other => key other ≠ key x) ++ [x] := by
  induction all with
  | nil => rfl
  | cons first rest ih =>
    rw [List.cons_append]
    by_cases hlater : key first ∈ rest.map key
    · have hmore : key first ∈ (rest ++ [x]).map key := by
        rw [List.map_append]
        exact List.mem_append_left _ hlater
      rw [unreplaced_cons_of_later hmore, unreplaced_cons_of_later hlater, ih]
    · by_cases hkey : key first = key x
      · have hmore : key first ∈ (rest ++ [x]).map key := by simp [hkey]
        rw [unreplaced_cons_of_later hmore, unreplaced_cons_of_last hlater, ih]
        simp [hkey]
      · have hmore : key first ∉ (rest ++ [x]).map key := by
          rw [List.map_append]
          simpa [hkey] using hlater
        rw [unreplaced_cons_of_last hmore, unreplaced_cons_of_last hlater, ih]
        simp [hkey]

theorem unreplaced_subset (key : α → κ) (all : List α) : unreplaced key all ⊆ all :=
  List.pwFilter_subset all

theorem unreplaced_eq_nil : unreplaced key all = [] ↔ all = [] := by
  cases all using List.reverseRecOn with
  | nil => simp [unreplaced]
  | append_singleton front x => simp [unreplaced_concat]

theorem unreplaced_map {other : β → κ} {f : α → β} (hkey : ∀ x, other (f x) = key x)
    (all : List α) :
    unreplaced other (all.map f) = (unreplaced key all).map f := by
  induction all using List.reverseRecOn with
  | nil => rfl
  | append_singleton all x ih =>
    rw [List.map_append, List.map_singleton, unreplaced_concat, unreplaced_concat, ih,
      List.map_append, List.filter_map, hkey]
    refine congrArg (· ++ [f x]) (congrArg _ (List.filter_congr fun y _ => ?_))
    rw [Function.comp_apply, hkey]

/-- Where elements with the same key all have a property or all lack it, it does not matter whether
those that lack it are taken out before or after. -/
theorem filter_unreplaced {p : α → Bool}
    (halike : ∀ x ∈ all, ∀ y ∈ all, key x = key y → p x = true → p y = true) :
    (unreplaced key all).filter p = unreplaced key (all.filter p) := by
  induction all with
  | nil => rfl
  | cons x rest ih =>
    have hrest := ih fun y hy z hz =>
      halike y (List.mem_cons_of_mem x hy) z (List.mem_cons_of_mem x hz)
    by_cases hlater : key x ∈ rest.map key
    · rw [unreplaced_cons_of_later hlater, hrest]
      by_cases hp : p x = true
      · obtain ⟨y, hmem, hkey⟩ := List.mem_map.1 hlater
        have hy : p y = true :=
          halike x (List.mem_cons_self ..) y (List.mem_cons_of_mem x hmem) hkey.symm hp
        rw [List.filter_cons_of_pos hp, unreplaced_cons_of_later]
        exact List.mem_map.2 ⟨y, List.mem_filter.2 ⟨hmem, hy⟩, hkey⟩
      · rw [List.filter_cons_of_neg hp]
    · rw [unreplaced_cons_of_last hlater]
      by_cases hp : p x = true
      · have hkept : key x ∉ (rest.filter p).map key := by
          intro hmem
          exact hlater (List.map_subset key (List.filter_subset_self rest) hmem)
        rw [List.filter_cons_of_pos hp, List.filter_cons_of_pos hp, hrest,
          unreplaced_cons_of_last hkept]
      · rw [List.filter_cons_of_neg hp, List.filter_cons_of_neg hp, hrest]

/-- Lists that match element by element, with the same keys, go on to match. -/
theorem forall₂_unreplaced {R : α → β → Prop} {other : β → κ} {those : List β}
    (hkeys : ∀ x y, R x y → key x = other y) (h : List.Forall₂ R all those) :
    List.Forall₂ R (unreplaced key all) (unreplaced other those) := by
  induction h with
  | nil => exact .nil
  | @cons x y rest those hfirst hrest ih =>
    have hmap : List.Forall₂ Eq (rest.map key) (those.map other) :=
      List.forall₂_map_left_iff.2 (List.forall₂_map_right_iff.2 (hrest.imp hkeys))
    rw [List.forall₂_eq_eq_eq] at hmap
    by_cases hlater : key x ∈ rest.map key
    · have hlater' : other y ∈ those.map other := by
        rwa [← hmap, ← hkeys x y hfirst]
      rw [unreplaced_cons_of_later hlater, unreplaced_cons_of_later hlater']
      exact ih
    · have hlater' : other y ∉ those.map other := by
        rwa [← hmap, ← hkeys x y hfirst]
      rw [unreplaced_cons_of_last hlater, unreplaced_cons_of_last hlater']
      exact .cons hfirst ih

end Lists

theorem Assoc.ofList_eq_unreplaced {κ ν : Type} [DecidableEq κ] (pairs : List (κ × ν)) :
    ofList pairs = unreplaced Prod.fst pairs := by
  induction pairs using List.reverseRecOn with
  | nil => rfl
  | append_singleton pairs pair ih =>
    rw [ofList_concat, unreplaced_concat, ih]
    rfl

/-- If all keys are among those of the last entries, then these are all entries. -/
theorem rtake_of_keys {κ ν : Type} {entries : List (κ × ν)} {capacity : Nat}
    (hkeys : (entries.map Prod.fst).Nodup)
    (hall : ∀ key ∈ entries.map Prod.fst, key ∈ (entries.rtake capacity).map Prod.fst) :
    entries.rtake capacity = entries := by
  rcases hfront : entries.take (entries.length - capacity) with _ | ⟨first, front⟩
  · have hsplit := List.take_append_drop (entries.length - capacity) entries
    rw [hfront] at hsplit
    exact hsplit
  · have hsplit : (first :: front) ++ entries.rtake capacity = entries := by
      rw [← hfront]
      exact List.take_append_drop _ _
    have hlast : first.1 ∈ (entries.rtake capacity).map Prod.fst := by
      apply hall
      rw [← hsplit]
      simp
    rw [← hsplit, List.map_append] at hkeys
    exact absurd rfl ((List.nodup_append.1 hkeys).2.2 first.1 (by simp) first.1 hlast)

end KeyedBlocks
