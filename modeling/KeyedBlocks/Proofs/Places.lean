import Mathlib.Data.List.Induction

/-!
Places in a list, each given by what stands before it and what behind it. Histories are lists, and
what has happened at some time of a history is told by such a place.
-/
namespace KeyedBlocks

variable {α : Type} {before before' after after' : List α} {x y : α}

/-- Of two places in a list, one is the other, or lies behind it, or before it. -/
theorem split_cases (h : before ++ x :: after = before' ++ y :: after') :
    (before = before' ∧ x = y ∧ after = after') ∨
      (∃ mid, before' = before ++ x :: mid ∧ after = mid ++ y :: after') ∨
      ∃ mid, before = before' ++ y :: mid ∧ after' = mid ++ x :: after := by
  rcases List.append_eq_append_iff.1 h with ⟨mid, hbefore, hafter⟩ | ⟨mid, hbefore, hafter⟩
  · cases mid with
    | nil =>
      obtain ⟨rfl, rfl⟩ := List.cons.inj hafter
      exact Or.inl ⟨by simpa using hbefore.symm, rfl, rfl⟩
    | cons first mid =>
      obtain ⟨rfl, rfl⟩ := List.cons.inj hafter
      exact Or.inr (Or.inl ⟨mid, hbefore, rfl⟩)
  · cases mid with
    | nil =>
      obtain ⟨rfl, rfl⟩ := List.cons.inj hafter
      exact Or.inl ⟨by simpa using hbefore, rfl, rfl⟩
    | cons first mid =>
      obtain ⟨rfl, rfl⟩ := List.cons.inj hafter
      exact Or.inr (Or.inr ⟨mid, hbefore, rfl⟩)

/-- A place in a list with a last element is that of the last element, or lies before it. -/
theorem split_concat_cases {all : List α} (h : all ++ [x] = before ++ y :: after) :
    (all = before ∧ x = y ∧ after = []) ∨
      ∃ rest, after = rest ++ [x] ∧ all = before ++ y :: rest := by
  rcases split_cases h with ⟨hbefore, hsame, hafter⟩ | ⟨mid, _, hafter⟩ | ⟨mid, hbefore, hafter⟩
  · exact Or.inl ⟨hbefore, hsame, hafter.symm⟩
  · simp at hafter
  · exact Or.inr ⟨mid, hafter, hbefore⟩

/-- Something in a list is marked, and nothing behind it spoils the mark. -/
def Since (mark spoil : α → Prop) (all : List α) : Prop :=
  ∃ before x after, all = before ++ x :: after ∧ mark x ∧ ∀ later ∈ after, ¬ spoil later

theorem not_since_nil {mark spoil : α → Prop} : ¬ Since mark spoil [] := by
  rintro ⟨before, x, after, hsplit, _⟩
  simp at hsplit

/-- One more element is the marked one, or leaves the mark that is there unspoilt. -/
theorem since_concat {mark spoil : α → Prop} {all : List α} :
    Since mark spoil (all ++ [x]) ↔ mark x ∨ (¬ spoil x ∧ Since mark spoil all) := by
  constructor
  · rintro ⟨before, y, after, hsplit, hmark, hafter⟩
    rcases split_concat_cases hsplit with ⟨_, rfl, _⟩ | ⟨rest, rfl, rfl⟩
    · exact Or.inl hmark
    · refine Or.inr ⟨hafter x (by simp), before, y, rest, rfl, hmark, fun later hlater => ?_⟩
      exact hafter later (List.mem_append_left _ hlater)
  · rintro (hmark | ⟨hspoil, before, y, after, rfl, hmark, hafter⟩)
    · exact ⟨all, x, [], rfl, hmark, fun later hlater => absurd hlater List.not_mem_nil⟩
    · refine ⟨before, y, after ++ [x], by simp, hmark, fun later hlater => ?_⟩
      rcases List.mem_append.1 hlater with hold | hlast
      · exact hafter later hold
      · obtain rfl := List.mem_singleton.1 hlast
        exact hspoil

/-- If something would spoil a mark, and all that could was itself marked in some way, then there is
one that is not spoilt. -/
theorem exists_since {γ : Type} {mark : γ → α → Prop} {spoil : α → Prop} {all : List α}
    (hmark : ∀ x, spoil x → ∃ kind, mark kind x) (h : ∃ x ∈ all, spoil x) :
    ∃ kind, Since (mark kind) spoil all := by
  induction all using List.reverseRecOn with
  | nil =>
    obtain ⟨x, hmem, _⟩ := h
    exact absurd hmem List.not_mem_nil
  | append_singleton all last ih =>
    by_cases hlast : spoil last
    · obtain ⟨kind, hkind⟩ := hmark last hlast
      exact ⟨kind, since_concat.2 (Or.inl hkind)⟩
    · obtain ⟨x, hmem, hx⟩ := h
      rcases List.mem_append.1 hmem with hold | hnew
      · obtain ⟨kind, hkind⟩ := ih ⟨x, hold, hx⟩
        exact ⟨kind, since_concat.2 (Or.inr ⟨hlast, hkind⟩)⟩
      · obtain rfl := List.mem_singleton.1 hnew
        exact absurd hx hlast

/-- A filter that does not take a mark away leaves it unspoilt. -/
theorem Since.filter {mark spoil : α → Prop} {all : List α} {p : α → Bool}
    (h : Since mark spoil all) (hkeep : ∀ x, mark x → p x = true) :
    Since mark spoil (all.filter p) := by
  obtain ⟨before, x, after, rfl, hmark, hafter⟩ := h
  refine ⟨before.filter p, x, after.filter p, ?_, hmark, fun later hlater => ?_⟩
  · rw [List.filter_append, List.filter_cons_of_pos (hkeep x hmark)]
  · exact hafter later (List.mem_filter.1 hlater).1

theorem Since.map {β : Type} {mark spoil : α → Prop} {mark' spoil' : β → Prop} {all : List α}
    {f : α → β} (h : Since mark spoil all) (hmark : ∀ x, mark x → mark' (f x))
    (hspoil : ∀ x, spoil' (f x) → spoil x) : Since mark' spoil' (all.map f) := by
  obtain ⟨before, x, after, rfl, hx, hafter⟩ := h
  refine ⟨before.map f, f x, after.map f, by simp, hmark x hx, fun later hlater => ?_⟩
  obtain ⟨y, hy, rfl⟩ := List.mem_map.1 hlater
  exact fun hlate => hafter y hy (hspoil y hlate)

/-- The end of a list keeps a mark, if it has anything that would have spoilt it. -/
theorem Since.of_suffix {mark spoil : α → Prop} {all back : List α} (h : Since mark spoil all)
    (hsuffix : back <:+ all) (hback : ∃ x ∈ back, spoil x) : Since mark spoil back := by
  obtain ⟨before, x, after, rfl, hmark, hafter⟩ := h
  have hplace : x :: after <:+ before ++ x :: after := List.suffix_append before (x :: after)
  rcases List.suffix_or_suffix_of_suffix hsuffix hplace with hshort | ⟨mid, rfl⟩
  · rcases List.suffix_cons_iff.1 hshort with rfl | hbehind
    · exact ⟨[], x, after, rfl, hmark, hafter⟩
    · obtain ⟨y, hy, hspoil⟩ := hback
      exact absurd hspoil (hafter y (hbehind.subset hy))
  · exact ⟨mid, x, after, rfl, hmark, hafter⟩

/-- Two marks that spoil each other do not both stand. -/
theorem Since.not_both {mark spoil other ruin : α → Prop} {all : List α} (h : Since mark spoil all)
    (h' : Since other ruin all) (hmark : ∀ x, mark x → ruin x) (hother : ∀ x, other x → spoil x)
    (hapart : ∀ x, mark x → ¬ other x) : False := by
  obtain ⟨before, x, after, rfl, hx, hafter⟩ := h
  obtain ⟨before', y, after', hsplit, hy, hafter'⟩ := h'
  rcases split_cases hsplit with ⟨_, rfl, _⟩ | ⟨mid, _, rfl⟩ | ⟨mid, _, rfl⟩
  · exact hapart x hx hy
  · exact hafter y (by simp) (hother y hy)
  · exact hafter' x (by simp) (hmark x hx)

end KeyedBlocks
