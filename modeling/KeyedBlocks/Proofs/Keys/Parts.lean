import KeyedBlocks.Bytes
import Mathlib.Data.List.Infix

/-!
The parts that a separator divides a byte string into. A part ends where the separator stands for
the first time behind the beginning of the part, and what is behind that separator is divided in
turn. A string without the separator is its own single part.
-/
namespace KeyedBlocks.Bytes

variable {sep part data rest : Bytes}

/-- Of the separators in a part with a separator behind it, the first is the one behind it. -/
def FirstBehind (sep part : Bytes) : Prop :=
  ∀ i < part.length, ¬ sep <+: (part ++ sep).drop i

instance : Decidable (FirstBehind sep part) :=
  inferInstanceAs (Decidable (∀ i < part.length, ¬ sep <+: (part ++ sep).drop i))

theorem firstBehind_nil (sep : Bytes) : FirstBehind sep [] :=
  fun _ hi => absurd hi (Nat.not_lt_zero _)

/-- Whatever comes behind the separator does not bring an earlier one about. -/
theorem FirstBehind.append (h : FirstBehind sep part) (rest : Bytes) {i : Nat}
    (hi : i < part.length) : ¬ sep <+: (part ++ sep ++ rest).drop i := by
  intro hfront
  have hlength : i ≤ (part ++ sep).length := by
    rw [List.length_append]
    omega
  rw [List.drop_append_of_le_length hlength] at hfront
  refine h i hi (List.prefix_of_prefix_length_le hfront (List.prefix_append _ rest) ?_)
  rw [List.length_drop, List.length_append]
  omega

theorem firstBehind_cons {b : UInt8} :
    FirstBehind sep (b :: part) ↔ ¬ sep <+: b :: (part ++ sep) ∧ FirstBehind sep part := by
  constructor
  · intro h
    refine ⟨h 0 (Nat.succ_pos _), fun i hi => ?_⟩
    exact h (i + 1) (Nat.succ_lt_succ hi)
  · rintro ⟨hfirst, hrest⟩ i hi
    cases i with
    | zero => exact hfirst
    | succ i => exact hrest i (Nat.lt_of_succ_lt_succ hi)

/-- The separator does not occur in what it stands behind, even with its own beginning. -/
theorem firstBehind_iff (hsep : sep ≠ []) :
    FirstBehind sep part ↔ ¬ sep <:+: part ++ sep.dropLast := by
  have hlast : part ++ sep.dropLast ++ [sep.getLast hsep] = part ++ sep := by
    rw [List.append_assoc, List.dropLast_append_getLast]
  have hlength : (part ++ sep.dropLast).length + 1 = part.length + sep.length := by
    have hpositive := List.length_pos_of_ne_nil hsep
    rw [List.length_append, List.length_dropLast]
    omega
  constructor
  · rintro h ⟨front, back, hsplit⟩
    have hlengths := congrArg List.length hsplit
    simp only [List.length_append] at hlengths hlength
    refine h front.length (by omega) ?_
    rw [← hlast, ← hsplit, List.append_assoc, List.append_assoc, List.drop_left]
    exact List.prefix_append _ _
  · intro h i hi hfront
    have hshort : (part ++ sep.dropLast).drop i <+: (part ++ sep).drop i :=
      List.IsPrefix.drop ⟨_, hlast⟩ i
    have hfits : sep.length ≤ ((part ++ sep.dropLast).drop i).length := by
      rw [List.length_drop]
      omega
    have hinside := List.prefix_of_prefix_length_le hfront hshort hfits
    exact h (hinside.isInfix.trans (List.drop_suffix _ _).isInfix)

/-- A separator that occurs at all occurs for the first time somewhere. -/
theorem exists_firstBehind (h : sep <:+: data) :
    ∃ part rest, data = part ++ sep ++ rest ∧ FirstBehind sep part := by
  induction data with
  | nil =>
    obtain rfl := List.infix_nil.1 h
    exact ⟨[], [], rfl, firstBehind_nil _⟩
  | cons b data ih =>
    by_cases hfront : sep <+: b :: data
    · obtain ⟨rest, hrest⟩ := hfront
      exact ⟨[], rest, hrest.symm, firstBehind_nil _⟩
    · obtain ⟨part, rest, rfl, hfirst⟩ := ih ((List.infix_cons_iff.1 h).resolve_left hfront)
      refine ⟨b :: part, rest, rfl, firstBehind_cons.2 ⟨fun hearlier => hfront ?_, hfirst⟩⟩
      exact hearlier.trans (List.prefix_append (b :: (part ++ sep)) rest)

theorem splitFrom_skip (sep : Bytes) (skip : Nat) (data : Bytes) :
    splitFrom sep skip data = splitFrom sep 0 (data.drop skip) := by
  induction skip generalizing data with
  | zero => rfl
  | succ skip ih =>
    cases data with
    | nil => rfl
    | cons b data => exact ih data

theorem splitOn_of_absent (h : ¬ sep <:+: data) : splitOn sep data = [data] := by
  have hfrom : ∀ data, ¬ sep <:+: data → splitFrom sep 0 data = [data] := by
    intro data hdata
    induction data with
    | nil => rfl
    | cons b data ih =>
      rw [List.infix_cons_iff, not_or] at hdata
      rw [splitFrom, if_neg (by simpa using hdata.1), ih hdata.2]
      rfl
  unfold splitOn
  split
  · rfl
  · exact hfrom data h

/-- The first separator divides a string into its first part and what is divided in turn. -/
theorem splitOn_append (hsep : sep ≠ []) (h : FirstBehind sep part) (rest : Bytes) :
    splitOn sep (part ++ sep ++ rest) = part :: splitOn sep rest := by
  have hfrom : splitFrom sep 0 (part ++ sep ++ rest) = part :: splitFrom sep 0 rest := by
    induction part with
    | nil =>
      obtain ⟨b, more, rfl⟩ := List.exists_cons_of_ne_nil hsep
      have hfront : (b :: more).isPrefixOf (b :: (more ++ rest)) = true :=
        List.isPrefixOf_iff_prefix.2 (List.prefix_append (b :: more) rest)
      show splitFrom (b :: more) 0 (b :: (more ++ rest)) = _
      rw [splitFrom, if_pos hfront, splitFrom_skip, List.length_cons, Nat.add_sub_cancel,
        List.drop_left]
    | cons b part ih =>
      have hnot : ¬ sep <+: b :: (part ++ sep ++ rest) := h.append rest (Nat.succ_pos _)
      show splitFrom sep 0 (b :: (part ++ sep ++ rest)) = _
      rw [splitFrom, if_neg (by simpa using hnot), ih (firstBehind_cons.1 h).2]
      rfl
  have hempty : sep.isEmpty = false := by simpa using hsep
  simpa [splitOn, hempty] using hfrom

/-- A string is one part, or its first part ends at a separator. -/
theorem splitOn_cases (hsep : sep ≠ []) (data : Bytes) :
    (¬ sep <:+: data ∧ splitOn sep data = [data]) ∨
      ∃ part rest, data = part ++ sep ++ rest ∧ FirstBehind sep part ∧
        splitOn sep data = part :: splitOn sep rest := by
  by_cases hoccurs : sep <:+: data
  · obtain ⟨part, rest, rfl, hfirst⟩ := exists_firstBehind hoccurs
    exact Or.inr ⟨part, rest, rfl, hfirst, splitOn_append hsep hfirst rest⟩
  · exact Or.inl ⟨hoccurs, splitOn_of_absent hoccurs⟩

theorem splitOn_eq_singleton_iff (hsep : sep ≠ []) :
    splitOn sep data = [part] ↔ data = part ∧ ¬ sep <:+: data := by
  constructor
  · intro h
    rcases splitOn_cases hsep data with ⟨hfree, hone⟩ | ⟨first, rest, _, _, hmore⟩
    · rw [hone] at h
      exact ⟨List.singleton_inj.1 h, hfree⟩
    · rw [hmore] at h
      exact absurd (List.cons.inj h).2 (splitOn_ne_nil sep rest)
  · rintro ⟨rfl, hfree⟩
    exact splitOn_of_absent hfree

theorem splitOn_eq_cons_cons_iff (hsep : sep ≠ []) {second : Bytes} {more : List Bytes} :
    splitOn sep data = part :: second :: more ↔
      ∃ rest, data = part ++ sep ++ rest ∧ FirstBehind sep part ∧
        splitOn sep rest = second :: more := by
  constructor
  · intro h
    rcases splitOn_cases hsep data with ⟨_, hone⟩ | ⟨first, rest, hdata, hfirst, hmore⟩
    · rw [hone] at h
      cases h
    · rw [hmore] at h
      obtain ⟨rfl, hrest⟩ := List.cons.inj h
      exact ⟨rest, hdata, hfirst, hrest⟩
  · rintro ⟨rest, rfl, hfirst, hrest⟩
    rw [splitOn_append hsep hfirst, hrest]

/-- Two parts stand before and behind the only separator. -/
theorem splitOn_eq_pair_iff (hsep : sep ≠ []) {second : Bytes} :
    splitOn sep data = [part, second] ↔
      data = part ++ sep ++ second ∧ FirstBehind sep part ∧ ¬ sep <:+: second := by
  rw [splitOn_eq_cons_cons_iff hsep]
  constructor
  · rintro ⟨rest, hdata, hfirst, hrest⟩
    obtain ⟨rfl, hone⟩ := (splitOn_eq_singleton_iff hsep).1 hrest
    exact ⟨hdata, hfirst, hone⟩
  · rintro ⟨hdata, hfirst, hone⟩
    exact ⟨second, hdata, hfirst, splitOn_of_absent hone⟩

end KeyedBlocks.Bytes
