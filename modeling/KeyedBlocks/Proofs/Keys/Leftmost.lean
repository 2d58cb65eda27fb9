import KeyedBlocks.Proofs.Keys.Parts

/-!
Splitting from the left. The parts of a string are known by four things: there is one at least,
joined by the separator they are the string, no part contains the separator, and behind each part
but the last it stands for the first time where that part ends. A scan that goes through the string
by two places, and takes every piece out by the places where it begins and ends, finds these parts
and never reaches beyond the string.
-/
namespace KeyedBlocks.Bytes

/-- The parts of a string where it is split at the separator, each time at the first. -/
structure Leftmost (sep data : Bytes) (parts : List Bytes) : Prop where
  some : parts ≠ []
  joined : sep.intercalate parts = data
  free : ∀ part ∈ parts, ¬ sep <:+: part
  first : ∀ part ∈ parts.dropLast, FirstBehind sep part

/-- The bytes from one place up to another, if both are in the string. -/
def slice? (data : Bytes) (start stop : Nat) : Option Bytes :=
  if start ≤ stop ∧ stop ≤ data.length then some ((data.drop start).take (stop - start)) else none

/-- Look for the separator at `i`, while the part that is not yet ended begins at `start`. -/
def scanFrom (sep data : Bytes) (start i : Nat) (parts : List Bytes) : Option (List Bytes) :=
  if h : sep ≠ [] ∧ i + sep.length ≤ data.length then do
    let window ← slice? data i (i + sep.length)
    if window = sep then
      let part ← slice? data start i
      scanFrom sep data (i + sep.length) (i + sep.length) (parts ++ [part])
    else scanFrom sep data start (i + 1) parts
  else do
    let last ← slice? data start data.length
    return parts ++ [last]
termination_by data.length - i
decreasing_by
  all_goals
    have hpositive := List.length_pos_of_ne_nil h.1
    omega

def scan (sep data : Bytes) : Option (List Bytes) := scanFrom sep data 0 0 []

/-- What splitting a string comes to. -/
structure SplitsLeftmost (sep data : Bytes) : Prop where
  only : sep ≠ [] → ∀ parts, Leftmost sep data parts ↔ parts = splitOn sep data
  scanned : scan sep data = some (splitOn sep data)
  whole : sep = [] → splitOn sep data = [data]

variable {sep data : Bytes} {start i : Nat}

theorem Leftmost.eq_splitOn (hsep : sep ≠ []) {parts : List Bytes} (h : Leftmost sep data parts) :
    parts = splitOn sep data := by
  obtain ⟨hsome, rfl, hfree, hfirst⟩ := h
  induction parts with
  | nil => exact absurd rfl hsome
  | cons part rest ih =>
    cases rest with
    | nil =>
      rw [List.intercalate_singleton]
      exact (splitOn_of_absent (hfree part (List.mem_singleton_self part))).symm
    | cons next more =>
      have hpart : FirstBehind sep part := hfirst part (List.mem_cons_self ..)
      have hrest : next :: more = splitOn sep (sep.intercalate (next :: more)) := by
        apply ih (List.cons_ne_nil next more)
        · intro other hmem
          exact hfree other (List.mem_cons_of_mem _ hmem)
        · intro other hmem
          exact hfirst other (List.mem_cons_of_mem _ hmem)
      rw [List.intercalate_cons_cons, splitOn_append hsep hpart, ← hrest]

theorem leftmost_singleton (h : ¬ sep <:+: data) : Leftmost sep data [data] where
  some := List.cons_ne_nil _ _
  joined := List.intercalate_singleton
  free := by simpa using h
  first _ hmem := absurd hmem List.not_mem_nil

/-- A part that ends at the first separator contains none. -/
theorem FirstBehind.not_infix (hsep : sep ≠ []) {part : Bytes} (h : FirstBehind sep part) :
    ¬ sep <:+: part := fun hinside =>
  (firstBehind_iff hsep).1 h (hinside.trans (List.prefix_append part sep.dropLast).isInfix)

theorem Leftmost.cons (hsep : sep ≠ []) {part rest : Bytes} {parts : List Bytes}
    (hpart : FirstBehind sep part) (h : Leftmost sep rest parts) :
    Leftmost sep (part ++ sep ++ rest) (part :: parts) where
  some := List.cons_ne_nil _ _
  joined := by rw [List.intercalate_cons_of_ne_nil h.some, h.joined]
  free := List.forall_mem_cons.2 ⟨hpart.not_infix hsep, h.free⟩
  first := by
    rw [List.dropLast_cons_of_ne_nil h.some]
    exact List.forall_mem_cons.2 ⟨hpart, h.first⟩

theorem leftmost_splitOn (hsep : sep ≠ []) (data : Bytes) :
    Leftmost sep data (splitOn sep data) := by
  induction hlength : data.length using Nat.strong_induction_on generalizing data with
  | h n ih =>
    rcases splitOn_cases hsep data with ⟨hfree, hone⟩ | ⟨part, rest, rfl, hpart, hmore⟩
    · rw [hone]
      exact leftmost_singleton hfree
    · have hpositive := List.length_pos_of_ne_nil hsep
      have hshorter : rest.length < n := by
        simp only [List.length_append] at hlength
        omega
      rw [hmore]
      exact (ih rest.length hshorter rest rfl).cons hsep hpart

theorem slice?_eq (hle : start ≤ i) (hin : i ≤ data.length) :
    slice? data start i = some ((data.drop start).take (i - start)) :=
  if_pos ⟨hle, hin⟩

/-- What is left from `start` on, cut at `i`. -/
theorem drop_eq_append (hle : start ≤ i) (data : Bytes) :
    data.drop start = (data.drop start).take (i - start) ++ data.drop i := by
  have hplace : start + (i - start) = i := by omega
  conv_lhs => rw [← List.take_append_drop (i - start) (data.drop start)]
  rw [List.drop_drop, hplace]

def Unseen (sep data : Bytes) (start i : Nat) : Prop :=
  ∀ j, start ≤ j → j < i → ¬ sep <+: data.drop j

/-- Where it has not been seen, and then stands, a part ends. -/
theorem Unseen.firstBehind (h : Unseen sep data start i) (hle : start ≤ i)
    (hhere : sep <+: data.drop i) :
    FirstBehind sep ((data.drop start).take (i - start)) := by
  have hfront : (data.drop start).take (i - start) ++ sep <+: data.drop start := by
    conv_rhs => rw [drop_eq_append hle data]
    exact (List.prefix_append_right_inj _).2 hhere
  intro k hk hearlier
  have hplace : k < i - start := by
    rw [List.length_take] at hk
    omega
  have hbehind : sep <+: data.drop (start + k) := by
    rw [← List.drop_drop]
    exact hearlier.trans (List.IsPrefix.drop hfront k)
  exact h (start + k) (by omega) (by omega) hbehind

theorem Unseen.splitOn_eq (h : Unseen sep data start i) (hsep : sep ≠ []) (hle : start ≤ i)
    (hhere : sep <+: data.drop i) :
    splitOn sep (data.drop start) =
      (data.drop start).take (i - start) :: splitOn sep (data.drop (i + sep.length)) := by
  have hrest : data.drop i = sep ++ data.drop (i + sep.length) := by
    obtain ⟨rest, hrest⟩ := hhere
    rw [← List.drop_drop, ← hrest, List.drop_left]
  conv_lhs => rw [drop_eq_append hle data, hrest, ← List.append_assoc]
  exact splitOn_append hsep (h.firstBehind hle hhere) _

/-- Where it has not been seen, and has no more room, it is absent. -/
theorem Unseen.not_infix (h : Unseen sep data start i) (hsep : sep ≠ [])
    (hroom : data.length < i + sep.length) : ¬ sep <:+: data.drop start := by
  rintro ⟨front, back, hsplit⟩
  have hhere : sep <+: data.drop (start + front.length) := by
    rw [← List.drop_drop, ← hsplit, List.append_assoc, List.drop_left]
    exact List.prefix_append sep back
  have hfits := hhere.length_le
  have hpositive := List.length_pos_of_ne_nil hsep
  rw [List.length_drop] at hfits
  exact h (start + front.length) (by omega) (by omega) hhere

/-- The scan goes on from any place as the split of what is left from the last part on. -/
theorem scanFrom_eq (hsep : sep ≠ []) (hle : start ≤ i) (hin : start ≤ data.length)
    (hunseen : Unseen sep data start i) (parts : List Bytes) :
    scanFrom sep data start i parts = some (parts ++ splitOn sep (data.drop start)) := by
  induction hleft : data.length - i using Nat.strong_induction_on
    generalizing start i parts with
  | h n ih =>
    have hpositive := List.length_pos_of_ne_nil hsep
    rw [scanFrom]
    by_cases hfits : i + sep.length ≤ data.length
    · have hwindow : slice? data i (i + sep.length) = some ((data.drop i).take sep.length) := by
        rw [slice?_eq (by omega) hfits, Nat.add_sub_cancel_left]
      rw [dif_pos ⟨hsep, hfits⟩, hwindow, slice?_eq hle (by omega)]
      simp only [Option.bind_eq_bind, Option.bind_some]
      by_cases hhere : sep <+: data.drop i
      · -- The part ends here, and the next one begins behind the separator.
        have hnone : Unseen sep data (i + sep.length) (i + sep.length) := by
          intro j hge hlt
          omega
        rw [if_pos (List.prefix_iff_eq_take.1 hhere).symm,
          ih _ (by omega) (Nat.le_refl _) hfits hnone _ rfl, hunseen.splitOn_eq hsep hle hhere,
          List.append_assoc]
        rfl
      · have hnext : Unseen sep data start (i + 1) := by
          intro j hge hlt
          rcases Nat.lt_succ_iff_lt_or_eq.1 hlt with hbefore | rfl
          · exact hunseen j hge hbefore
          · exact hhere
        rw [if_neg fun heq => hhere (List.prefix_iff_eq_take.2 heq.symm)]
        exact ih _ (by omega) (by omega) hin hnext parts rfl
    · have hlast : (data.drop start).take (data.length - start) = data.drop start :=
        List.take_of_length_le (by rw [List.length_drop])
      rw [dif_neg fun h => hfits h.2, slice?_eq hin (Nat.le_refl _), hlast,
        splitOn_of_absent (hunseen.not_infix hsep (by omega))]
      rfl

theorem scan_eq (sep data : Bytes) : scan sep data = some (splitOn sep data) := by
  by_cases hsep : sep = []
  · subst hsep
    rw [scan, scanFrom, dif_neg fun h => h.1 rfl, slice?_eq (Nat.zero_le _) (Nat.le_refl _)]
    simp [splitOn]
  · have hstart : Unseen sep data 0 0 := fun j _ hlt => absurd hlt (Nat.not_lt_zero j)
    exact scanFrom_eq hsep (Nat.le_refl 0) (Nat.zero_le _) hstart []

/-- A string has one split from the left, and the scan finds it. -/
theorem splitsLeftmost (sep data : Bytes) : SplitsLeftmost sep data where
  only hsep parts := by
    constructor
    · exact fun h => h.eq_splitOn hsep
    · rintro rfl
      exact leftmost_splitOn hsep data
  scanned := scan_eq sep data
  whole := by
    rintro rfl
    rfl

-- A separator may overlap itself: `[1]` and `[]` join to the same string, but not from the left.
example : splitOn [1, 1] [1, 1, 1] = [[], [1]] ∧ ¬ FirstBehind [1, 1] [1] := by decide

end KeyedBlocks.Bytes
