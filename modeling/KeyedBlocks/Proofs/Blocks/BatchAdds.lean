import KeyedBlocks.Proofs.Blocks.Faults

/-!
Storing blocks as one batch, and storing them one by one. Where no address is faulty both succeed
and leave the same blocks, of which the last for an address counts. Otherwise both report the fault
of the first faulty address; the batch has then stored nothing, and one by one the blocks before
that address are stored.
-/
namespace KeyedBlocks

namespace Faults

def Strikes (f : Faults) (a : Address) : Prop := f.everywhere ≠ none ∨ a ∈ f.addresses

/-- What a call that fails at an address reports. The text of a fault that is everywhere goes first.
-/
def faultAt (f : Faults) (a : Address) : StoreError :=
  memoryFault (f.everywhere.getD ("address " ++ a.text))

theorem check_eq_ok_iff {f : Faults} {a : Address} : f.check a = .ok () ↔ ¬ f.Strikes a := by
  unfold check Strikes
  cases f.everywhere with
  | some detail => simp
  | none => by_cases hmem : a ∈ f.addresses <;> simp [hmem]

theorem check_eq_error_iff {f : Faults} {a : Address} {e : StoreError} :
    f.check a = .error e ↔ f.Strikes a ∧ e = f.faultAt a := by
  unfold check Strikes faultAt
  cases f.everywhere with
  | some detail => simp [eq_comm]
  | none => by_cases hmem : a ∈ f.addresses <;> simp [hmem, eq_comm]

end Faults

namespace BlockStore

def lastFor? (a : Address) (blocks : List (Address × Bytes)) : Option Bytes :=
  (blocks.reverse.find? fun block => block.1 = a).map Prod.snd

/-- One store has become another in that blocks were written over its own. -/
structure Overwritten (s t : BlockStore) (blocks : List (Address × Bytes)) : Prop where
  contents : ∀ a, t.peek a = (lastFor? a blocks).or (s.peek a)
  others : t = { s with blocks := t.blocks, calls := t.calls }

/-- What storing blocks as a batch and storing them one by one come to. -/
inductive AddsAlike (s : BlockStore) (blocks : List (Address × Bytes)) : Prop
  /-- No address is faulty. -/
  | stored
      (spared : ∀ block ∈ blocks, ¬ s.faults.Strikes block.1)
      (batch : (s.storeBatch blocks).2 = .ok ())
      (each : (s.storeEach blocks).2 = .ok ())
      (same : (s.storeBatch blocks).1.blocks = (s.storeEach blocks).1.blocks)
      (whole : s.Overwritten (s.storeBatch blocks).1 blocks)
  /-- The address of `block` is the first that is faulty. -/
  | faulty {before after : List (Address × Bytes)} {block : Address × Bytes}
      (split : blocks = before ++ block :: after)
      (spared : ∀ earlier ∈ before, ¬ s.faults.Strikes earlier.1)
      (struck : s.faults.Strikes block.1)
      (batch : (s.storeBatch blocks).2 = .error (s.faults.faultAt block.1))
      (each : (s.storeEach blocks).2 = .error (s.faults.faultAt block.1))
      (unchanged : (s.storeBatch blocks).1 = { s with calls := (s.storeBatch blocks).1.calls })
      (part : s.Overwritten (s.storeEach blocks).1 before)

variable {s : BlockStore} {blocks : List (Address × Bytes)}

theorem lastFor?_concat (a : Address) (blocks : List (Address × Bytes)) (block : Address × Bytes) :
    lastFor? a (blocks ++ [block]) = if block.1 = a then some block.2 else lastFor? a blocks := by
  unfold lastFor?
  rw [List.reverse_append, List.reverse_singleton, List.singleton_append, List.find?_cons]
  by_cases haddress : block.1 = a <;> simp [haddress]

/-- Of blocks that are written in order, the last for an address is found there. -/
theorem find?_writeAll (rows blocks : List (Address × Bytes)) (a : Address) :
    Assoc.find? a (writeAll rows blocks) = (lastFor? a blocks).or (Assoc.find? a rows) := by
  induction blocks using List.reverseRecOn with
  | nil => rfl
  | append_singleton blocks block ih =>
    obtain ⟨key, value⟩ := block
    rw [writeAll_concat, lastFor?_concat]
    by_cases hkey : key = a
    · subst hkey
      rw [if_pos rfl, Assoc.find?_insert_self, Option.some_or]
    · rw [if_neg hkey, Assoc.find?_insert_of_ne (Ne.symm hkey), ih]

theorem overwritten_writeAll (s : BlockStore) (blocks : List (Address × Bytes))
    (calls : CallCounts) :
    s.Overwritten { s with blocks := writeAll s.blocks blocks, calls } blocks :=
  ⟨find?_writeAll s.blocks blocks, rfl⟩

theorem clean_iff_spared {f : Faults} :
    f.Clean (blocks.map Prod.fst) ↔ ∀ block ∈ blocks, ¬ f.Strikes block.1 := by
  simp only [Faults.Clean, List.forall_mem_map, Faults.check_eq_ok_iff]

theorem addsAlike_of_clean (h : s.faults.Clean (blocks.map Prod.fst)) : s.AddsAlike blocks := by
  obtain ⟨counted, hbatch⟩ := storeBatch_of_clean h
  obtain ⟨calls, heach⟩ := storeEach_of_clean h
  refine .stored (clean_iff_spared.1 h) ?_ ?_ ?_ ?_
  · rw [hbatch]
  · rw [heach]
  · rw [hbatch, heach]
  · rw [hbatch]
    exact s.overwritten_writeAll blocks counted

theorem addsAlike_of_meets {addresses : List Address} {e : StoreError}
    (h : s.faults.MeetsAfter (blocks.map Prod.fst) addresses e) : s.AddsAlike blocks := by
  obtain ⟨counted, hbatch⟩ := storeBatch_of_meets h
  obtain ⟨calls, heach⟩ := storeEach_of_meets h
  obtain ⟨hclean, a, after, hsplit, hfault⟩ := h
  obtain ⟨before, back, rfl, rfl, hback⟩ := List.map_eq_append_iff.1 hsplit
  obtain ⟨block, rest, rfl, rfl, _⟩ := List.map_eq_cons_iff.1 hback
  obtain ⟨hstruck, rfl⟩ := Faults.check_eq_error_iff.1 hfault
  have hbefore : (before ++ block :: rest).take (before.map Prod.fst).length = before := by simp
  rw [hbefore] at heach
  refine .faulty rfl (clean_iff_spared.1 hclean) hstruck ?_ ?_ ?_ ?_
  · rw [hbatch]
  · rw [heach]
  · rw [hbatch]
  · rw [heach]
    exact s.overwritten_writeAll before calls

/-- Whatever a store holds and whichever faults it has, it takes any blocks alike. -/
theorem addsAlike (s : BlockStore) (blocks : List (Address × Bytes)) : s.AddsAlike blocks := by
  rcases s.faults.clean_or_meets (blocks.map Prod.fst) with hclean | ⟨before, e, hmeets⟩
  · exact addsAlike_of_clean hclean
  · exact addsAlike_of_meets hmeets

end BlockStore

end KeyedBlocks
