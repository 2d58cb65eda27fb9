import KeyedBlocks.Proofs.Relational.Iteration

/-!
Walks over an unchanging database. A walk steps a cursor and reads the value of each key that it
comes to; as long as reading values leaves the cursor where it is, the walk visits the keys that
match one after the other, and does not end in an error.
-/
namespace KeyedBlocks

namespace Iteration

def ofSite (site : Site Relational) (e : SqlDatabase) (stem start : Bytes) : Iteration :=
  ⟨site, e.iterate stem start, []⟩

theorem ofSite_begun {site : Site Relational} (h : site.backend.Scannable) (e : SqlDatabase)
    (stem start : Bytes) : (ofSite site e stem start).Begun stem start where
  scannable := h
  stem_eq := rfl
  pageSize := Nat.lt_of_lt_of_le Nat.one_pos (Nat.le_max_right ..)
  follows := Cursor.create_follows stem start e.config.pageSize
  yielded := rfl
  page := rfl
  lower := rfl

theorem undisturbed_replicate (n : Nat) : Undisturbed (List.replicate n .next) :=
  fun _ hmem => List.eq_of_mem_replicate hmem

theorem Sound.error?_run {s : Iteration} {stem start : Bytes} (h : s.Sound stem start)
    (events : List Event) : (s.run events).cursor.error? = none := by
  have hunfailed := (h.run events).follows.unfailed
  unfold Cursor.error?
  split
  · rename_i e hstate
    exact absurd hstate (hunfailed e)
  · rfl

/-- While nobody writes, the key that a step comes to is the next one of those that match. -/
theorem Begun.came_of_next {s : Iteration} {stem start : Bytes} (h : s.Begun stem start) {n : Nat}
    (hfound : (s.run (.replicate n .next)).next.2 = true) :
    ∃ key, (s.run (.replicate (n + 1) .next)).cursor.key? = some key ∧
      (s.matching stem start).drop n = key :: (s.matching stem start).drop (n + 1) := by
  obtain ⟨key, hcame⟩ := (h.toSound.run (.replicate n .next)).stepped.found hfound
  have hbefore := h.yielded_eq_take (undisturbed_replicate n)
  have hafter := h.yielded_eq_take (undisturbed_replicate (n + 1))
  have hshort := (h.next_iff (undisturbed_replicate n)).1 hfound
  rw [List.replicate_succ'] at hafter ⊢
  rw [run_concat] at hafter ⊢
  simp only [Iteration.step, hcame, Option.toList_some, hbefore, List.length_append,
    List.length_replicate, List.length_singleton] at hafter hshort
  refine ⟨key, ?_, ?_⟩
  · rw [Cursor.came, hfound] at hcame
    exact hcame
  · rw [← List.take_append_getElem hshort] at hafter
    have hkey : key = (s.matching stem start)[n] :=
      List.singleton_inj.1 (List.append_cancel_left hafter)
    rw [hkey, List.drop_eq_getElem_cons hshort]

end Iteration

namespace SqlDatabase

/-- If the cursor stays at each key that it comes to, whatever is read there, a walk over an
unchanging database visits the keys that match one after the other. -/
theorem walk_visits {e : SqlDatabase} {s : Iteration} {stem start : Bytes} (h : s.Begun stem start)
    {values : Bool} {value : Bytes → Option (Except StoreError Bytes)}
    (hread : ∀ key ∈ s.matching stem start, ∀ c : Cursor, c.key? = some key →
      e.valueIf s.site.backend values c = (c, value key))
    (limit n : Nat) :
    ∃ last, e.walk s.site.backend values limit (s.run (.replicate n .next)).cursor =
        (last, (((s.matching stem start).drop n).take limit).map fun key => ⟨key, value key⟩) ∧
      last.error? = none := by
  induction limit generalizing n with
  | zero => exact ⟨_, rfl, h.toSound.error?_run _⟩
  | succ limit ih =>
    have hsite : (s.run (.replicate n .next)).site = s.site :=
      Iteration.site_run (Iteration.undisturbed_replicate n)
    have hafter : nextKey s.site.backend (s.run (.replicate n .next)).cursor =
        ((s.run (.replicate (n + 1) .next)).cursor, (s.run (.replicate n .next)).next.2) := by
      rw [List.replicate_succ', Iteration.run_concat, ← hsite]
      rfl
    unfold walk
    rw [hafter]
    cases hfound : (s.run (.replicate n .next)).next.2 with
    | false =>
      have hdone : (s.matching stem start).length ≤ n := by
        have hnext := h.next_iff (Iteration.undisturbed_replicate n)
        rw [hfound, List.length_replicate] at hnext
        simpa using hnext
      refine ⟨(s.run (.replicate (n + 1) .next)).cursor, ?_, h.toSound.error?_run _⟩
      rw [List.drop_eq_nil_of_le hdone]
      rfl
    | true =>
      obtain ⟨key, hkey, hdrop⟩ := h.came_of_next hfound
      have hmem : key ∈ s.matching stem start :=
        List.mem_of_mem_drop (hdrop ▸ List.mem_cons_self ..)
      obtain ⟨last, hrest, herror⟩ := ih (n + 1)
      refine ⟨last, ?_, herror⟩
      simp only [hread key hmem _ hkey, hrest, hkey, hdrop, List.take_succ_cons, List.map_cons,
        Option.getD_some]

/-- So it does if it can read a value at each key. -/
theorem walk_from {e : SqlDatabase} {s : Iteration} {stem start : Bytes} (h : s.Begun stem start)
    {value : Bytes → Option Bytes}
    (hread : ∀ key ∈ s.matching stem start, ∀ c : Cursor, c.key? = some key →
      ∃ found, value key = some found ∧ e.valueAt s.site.backend c = (c, .ok found))
    (limit n : Nat) :
    ∃ last, e.walk s.site.backend true limit (s.run (.replicate n .next)).cursor =
        (last, (((s.matching stem start).drop n).take limit).map
          fun key => ⟨key, (value key).map .ok⟩) ∧
      last.error? = none := by
  refine walk_visits h (fun key hmem c hkey => ?_) limit n
  obtain ⟨found, hvalue, hstays⟩ := hread key hmem c hkey
  simp only [valueIf, if_true, hstays, hvalue, Option.map_some]

end SqlDatabase

end KeyedBlocks
