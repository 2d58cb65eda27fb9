import KeyedBlocks.Blocks.Store
import KeyedBlocks.Proofs.Backends.FlatMap

/-!
What a block store does when it meets a fault. A call that meets one changes nothing but the count
of calls. Of a batch the store takes all or nothing; block by block it takes those before the first
fault.
-/
namespace KeyedBlocks

namespace Faults

def Clean (f : Faults) (addresses : List Address) : Prop := ∀ a ∈ addresses, f.check a = .ok ()

/-- Calls at these addresses, one after the other, meet a fault just after those at `before`. -/
structure MeetsAfter (f : Faults) (addresses before : List Address) (e : StoreError) : Prop where
  clean : f.Clean before
  met : ∃ a after, addresses = before ++ a :: after ∧ f.check a = .error e

theorem Clean.of_cons {f : Faults} {a : Address} {rest : List Address} (h : f.Clean (a :: rest)) :
    f.check a = .ok () ∧ f.Clean rest :=
  List.forall_mem_cons.1 h

theorem clean_or_meets (f : Faults) (addresses : List Address) :
    f.Clean addresses ∨ ∃ before e, f.MeetsAfter addresses before e := by
  induction addresses with
  | nil => exact Or.inl fun a hmem => absurd hmem List.not_mem_nil
  | cons a rest ih =>
    cases hcheck : f.check a with
    | error e =>
      have hnone : f.Clean [] := fun a hmem => absurd hmem List.not_mem_nil
      exact Or.inr ⟨[], e, hnone, a, rest, rfl, hcheck⟩
    | ok =>
      rcases ih with hclean | ⟨before, e, hbefore, x, after, rfl, hfault⟩
      · exact Or.inl (List.forall_mem_cons.2 ⟨hcheck, hclean⟩)
      · have hclean : f.Clean (a :: before) := List.forall_mem_cons.2 ⟨hcheck, hbefore⟩
        exact Or.inr ⟨a :: before, e, hclean, x, after, rfl, hfault⟩

theorem MeetsAfter.not_clean {f : Faults} {addresses before : List Address} {e : StoreError}
    (h : f.MeetsAfter addresses before e) : ¬ f.Clean addresses := by
  intro hclean
  obtain ⟨a, after, rfl, hfault⟩ := h.met
  have hok := hclean a (List.mem_append_right _ (List.mem_cons_self ..))
  rw [hfault] at hok
  cases hok

end Faults

namespace BlockStore

variable {s : BlockStore} {a : Address} {e : StoreError} {blocks : List (Address × Bytes)}
  {before : List Address}

theorem store_of_ok (h : s.faults.check a = .ok ()) (value : Bytes) :
    ∃ calls, s.store a value =
      ({ s with blocks := Assoc.insert a value s.blocks, calls }, .ok ()) := by
  simp only [store, h]
  exact ⟨_, rfl⟩

theorem store_of_error (h : s.faults.check a = .error e) (value : Bytes) :
    ∃ calls, s.store a value = ({ s with calls }, .error e) := by
  simp only [store, h]
  exact ⟨_, rfl⟩

theorem remove_of_ok (h : s.faults.check a = .ok ()) :
    ∃ calls, s.remove a =
      ({ s with blocks := Assoc.erase a s.blocks, calls }, .ok (s.peek a).isSome) := by
  simp only [remove, h]
  exact ⟨_, rfl⟩

theorem remove_of_error (h : s.faults.check a = .error e) :
    ∃ calls, s.remove a = ({ s with calls }, .error e) := by
  simp only [remove, h]
  exact ⟨_, rfl⟩

theorem checkAll_of_clean {f : Faults} (h : f.Clean (blocks.map Prod.fst)) :
    checkAll f blocks = .ok () := by
  induction blocks with
  | nil => rfl
  | cons block rest ih =>
    obtain ⟨hfirst, hrest⟩ := h.of_cons
    simp only [checkAll, hfirst]
    exact ih hrest

theorem checkAll_of_meets {f : Faults} (h : f.MeetsAfter (blocks.map Prod.fst) before e) :
    checkAll f blocks = .error e := by
  obtain ⟨hclean, x, after, hsplit, hfault⟩ := h
  induction before generalizing blocks with
  | nil =>
    obtain ⟨block, rest, rfl, rfl, _⟩ := List.map_eq_cons_iff.1 hsplit
    simp only [checkAll, hfault]
    rfl
  | cons first before ih =>
    obtain ⟨block, rest, rfl, rfl, hrest⟩ := List.map_eq_cons_iff.1 hsplit
    obtain ⟨hfirst, hbefore⟩ := hclean.of_cons
    simp only [checkAll, hfirst]
    exact ih hbefore hrest

theorem storeBatch_of_clean (h : s.faults.Clean (blocks.map Prod.fst)) :
    ∃ calls, s.storeBatch blocks =
      ({ s with blocks := writeAll s.blocks blocks, calls }, .ok ()) := by
  simp only [storeBatch, checkAll_of_clean h]
  exact ⟨_, rfl⟩

theorem storeBatch_of_meets (h : s.faults.MeetsAfter (blocks.map Prod.fst) before e) :
    ∃ calls, s.storeBatch blocks = ({ s with calls }, .error e) := by
  simp only [storeBatch, checkAll_of_meets h]
  exact ⟨_, rfl⟩

theorem storeEach_of_clean (h : s.faults.Clean (blocks.map Prod.fst)) :
    ∃ calls, s.storeEach blocks =
      ({ s with blocks := writeAll s.blocks blocks, calls }, .ok ()) := by
  unfold storeEach
  induction blocks generalizing s with
  | nil => exact ⟨s.calls, rfl⟩
  | cons block rest ih =>
    obtain ⟨hfirst, hrest⟩ := h.of_cons
    obtain ⟨counted, hstore⟩ := store_of_ok hfirst block.2
    obtain ⟨calls, hall⟩ :=
      ih (s := { s with blocks := Assoc.insert block.1 block.2 s.blocks, calls := counted }) hrest
    exact ⟨calls, (runSteps_cons_ok hstore rest).trans hall⟩

theorem storeEach_of_meets (h : s.faults.MeetsAfter (blocks.map Prod.fst) before e) :
    ∃ calls, s.storeEach blocks =
      ({ s with blocks := writeAll s.blocks (blocks.take before.length), calls }, .error e) := by
  obtain ⟨hclean, x, after, hsplit, hfault⟩ := h
  obtain ⟨front, back, rfl, rfl, hback⟩ := List.map_eq_append_iff.1 hsplit
  obtain ⟨block, rest, rfl, rfl, _⟩ := List.map_eq_cons_iff.1 hback
  obtain ⟨counted, hfront⟩ := storeEach_of_clean hclean
  obtain ⟨calls, hstore⟩ :=
    store_of_error (s := { s with blocks := writeAll s.blocks front, calls := counted })
      hfault block.2
  have hlength : (front ++ block :: rest).take (front.map Prod.fst).length = front := by simp
  rw [hlength]
  exact ⟨calls, (runSteps_append_ok hfront _).trans (runSteps_cons_error hstore rest)⟩

end BlockStore

end KeyedBlocks
