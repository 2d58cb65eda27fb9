import KeyedBlocks.Blocks.Service
import KeyedBlocks.Proofs.Blocks.Faults

/-!
How far a batch gets on a block service that may meet faults. The puts come first, in one call, and
then the deletes one by one, each followed by its address in the cache. The batch ends at the first
fault, and what was done until then stands.
-/
namespace KeyedBlocks

def Buffer.putBlocks (b : Buffer) : List (Address × Bytes) := b.putList.map Prod.snd

def Buffer.deleteAddresses (b : Buffer) : List Address := b.deleteList.map Prod.snd

namespace BlockService

/-- How the batch ends: which puts are then written, which deletes are made, and the result. -/
inductive Ends (s : BlockService) (b : Buffer) :
    List (Address × Bytes) → List Address → Except StoreError Unit → Prop
  /-- At a put. A service with a call for whole batches has then stored nothing, another one the
  puts before. -/
  | put {before : List Address} {e : StoreError}
      (fault : s.store.faults.MeetsAfter (b.putBlocks.map Prod.fst) before e) :
      Ends s b (if s.batches then [] else b.putBlocks.take before.length) [] (.error e)
  /-- At a delete. All puts are stored then, and the deletes before are made. -/
  | delete {before : List Address} {e : StoreError}
      (stored : s.store.faults.Clean (b.putBlocks.map Prod.fst))
      (fault : s.store.faults.MeetsAfter b.deleteAddresses before e) :
      Ends s b b.putBlocks before (.error e)
  /-- When all is done. -/
  | done (stored : s.store.faults.Clean (b.putBlocks.map Prod.fst))
      (removed : s.store.faults.Clean b.deleteAddresses) :
      Ends s b b.putBlocks b.deleteAddresses (.ok ())

def removals (deletes : List Address) : List (Effect BlockWrite) :=
  deletes.flatMap fun a => [.perform (.remove a), .forget a]

theorem flush_eq (b : Buffer) :
    flush b =
      (if b.putBlocks.isEmpty then [] else [.perform (.storeAll b.putBlocks)]) ++
        removals b.deleteAddresses := by
  simp only [flush, removals, Buffer.putBlocks, Buffer.deleteAddresses, List.flatMap_map]
  rfl

def site (s : Site BlockService) (puts : List (Address × Bytes)) (deletes : List Address)
    (calls : CallCounts) : Site BlockService :=
  { backend := { s.backend with store := { s.backend.store with
      blocks := eraseAll (writeAll s.backend.store.blocks puts) deletes, calls } }
    cache := s.cache.invalidateAll deletes
    now := s.now }

variable {s : Site BlockService} {deletes before : List Address} {e : StoreError}

theorem step_remove {a : Address} (h : s.backend.store.faults.check a = .ok ()) :
    ∃ calls, s.run [.perform (.remove a), .forget a] = (site s [] [a] calls, .ok ()) := by
  obtain ⟨calls, hremove⟩ := BlockStore.remove_of_ok h
  have hperform : Backend.perform s.backend (.remove a) =
      ({ s.backend with store := { s.backend.store with
          blocks := Assoc.erase a s.backend.store.blocks, calls } }, .ok ()) := by
    show s.backend.perform (.remove a) = _
    simp only [perform, hremove]
    rfl
  refine ⟨calls, ?_⟩
  simp only [Site.run, runSteps, Site.step, hperform]
  rfl

theorem step_remove_error {a : Address} (h : s.backend.store.faults.check a = .error e) :
    ∃ calls, s.step (.perform (.remove a)) = (site s [] [] calls, .error e) := by
  obtain ⟨calls, hremove⟩ := BlockStore.remove_of_error h
  have hperform : Backend.perform s.backend (.remove a) =
      ({ s.backend with store := { s.backend.store with calls } }, .error e) := by
    show s.backend.perform (.remove a) = _
    simp only [perform, hremove]
    rfl
  refine ⟨calls, ?_⟩
  simp only [Site.step, hperform]
  rfl

theorem run_removals (h : s.backend.store.faults.Clean deletes) :
    ∃ calls, s.run (removals deletes) = (site s [] deletes calls, .ok ()) := by
  induction deletes generalizing s with
  | nil => exact ⟨s.backend.store.calls, rfl⟩
  | cons a rest ih =>
    obtain ⟨hfirst, hrest⟩ := h.of_cons
    obtain ⟨counted, hremove⟩ := step_remove hfirst
    obtain ⟨calls, hall⟩ := ih (s := site s [] [a] counted) hrest
    exact ⟨calls, (runSteps_append_ok hremove _).trans hall⟩

theorem run_removals_error (h : s.backend.store.faults.MeetsAfter deletes before e) :
    ∃ calls, s.run (removals deletes) = (site s [] before calls, .error e) := by
  obtain ⟨hclean, a, after, rfl, hfault⟩ := h
  obtain ⟨counted, hbefore⟩ := run_removals hclean
  obtain ⟨calls, hremove⟩ := step_remove_error (s := site s [] before counted) hfault
  have hsplit : removals (before ++ a :: after) =
      removals before ++ .perform (.remove a) :: .forget a :: removals after := by
    simp [removals]
  rw [hsplit]
  exact ⟨calls, (runSteps_append_ok hbefore _).trans (runSteps_cons_error hremove _)⟩

theorem step_storeAll {puts : List (Address × Bytes)}
    (h : s.backend.store.faults.Clean (puts.map Prod.fst)) :
    ∃ calls, s.step (.perform (.storeAll puts)) = (site s puts [] calls, .ok ()) := by
  have hstore : ∃ calls, s.backend.storeAll puts =
      ({ s.backend.store with blocks := writeAll s.backend.store.blocks puts, calls }, .ok ()) := by
    unfold storeAll
    split
    · exact BlockStore.storeBatch_of_clean h
    · exact BlockStore.storeEach_of_clean h
  obtain ⟨calls, hstore⟩ := hstore
  have hperform : Backend.perform s.backend (.storeAll puts) =
      ({ s.backend with store := { s.backend.store with
          blocks := writeAll s.backend.store.blocks puts, calls } }, .ok ()) := by
    show s.backend.perform (.storeAll puts) = _
    simp only [perform, hstore]
  refine ⟨calls, ?_⟩
  simp only [Site.step, hperform]
  rfl

theorem step_storeAll_error {puts : List (Address × Bytes)}
    (h : s.backend.store.faults.MeetsAfter (puts.map Prod.fst) before e) :
    ∃ calls, s.step (.perform (.storeAll puts)) =
      (site s (if s.backend.batches then [] else puts.take before.length) [] calls, .error e) := by
  have hstore : ∃ calls, s.backend.storeAll puts =
      ({ s.backend.store with
          blocks := writeAll s.backend.store.blocks
            (if s.backend.batches then [] else puts.take before.length), calls }, .error e) := by
    unfold storeAll
    split
    · exact BlockStore.storeBatch_of_meets h
    · exact BlockStore.storeEach_of_meets h
  obtain ⟨calls, hstore⟩ := hstore
  have hperform : Backend.perform s.backend (.storeAll puts) =
      ({ s.backend with store := { s.backend.store with
          blocks := writeAll s.backend.store.blocks
            (if s.backend.batches then [] else puts.take before.length), calls } }, .error e) := by
    show s.backend.perform (.storeAll puts) = _
    simp only [perform, hstore]
  refine ⟨calls, ?_⟩
  simp only [Site.step, hperform]
  rfl

/-- All puts of a batch, which are not made at all if there are none. -/
theorem run_puts (b : Buffer) (h : s.backend.store.faults.Clean (b.putBlocks.map Prod.fst)) :
    ∃ calls, s.run (if b.putBlocks.isEmpty then [] else [.perform (.storeAll b.putBlocks)]) =
      (site s b.putBlocks [] calls, .ok ()) := by
  cases hputs : b.putBlocks with
  | nil => exact ⟨s.backend.store.calls, rfl⟩
  | cons first rest =>
    rw [hputs] at h
    obtain ⟨calls, hstore⟩ := step_storeAll h
    exact ⟨calls, runSteps_cons_ok hstore []⟩

/-- A batch ends in one of three ways, and leaves just what it has written and deleted until then.
-/
theorem flush_ends (s : Site BlockService) (b : Buffer) :
    ∃ puts deletes result calls, s.backend.Ends b puts deletes result ∧
      s.flush b = (site s puts deletes calls, result) := by
  have hplan : s.flush b = s.run (flush b) := rfl
  rw [hplan, flush_eq]
  rcases s.backend.store.faults.clean_or_meets (b.putBlocks.map Prod.fst) with
    hputs | ⟨before, e, hfault⟩
  · obtain ⟨stored, hrun⟩ := run_puts b hputs
    rcases s.backend.store.faults.clean_or_meets b.deleteAddresses with
      hdeletes | ⟨before, e, hfault⟩
    · obtain ⟨calls, hremoved⟩ := run_removals (s := site s b.putBlocks [] stored) hdeletes
      exact ⟨_, _, _, calls, .done hputs hdeletes, (runSteps_append_ok hrun _).trans hremoved⟩
    · obtain ⟨calls, hremoved⟩ := run_removals_error (s := site s b.putBlocks [] stored) hfault
      exact ⟨_, _, _, calls, .delete hputs hfault, (runSteps_append_ok hrun _).trans hremoved⟩
  · have hsome : b.putBlocks.isEmpty = false := by
      cases hputs : b.putBlocks with
      | nil =>
        rw [hputs] at hfault
        exact absurd (fun a hmem => absurd hmem List.not_mem_nil) hfault.not_clean
      | cons first rest => rfl
    obtain ⟨calls, hstore⟩ := step_storeAll_error (s := s) hfault
    rw [hsome]
    exact ⟨_, _, _, calls, .put hfault, runSteps_cons_error hstore _⟩

end BlockService

end KeyedBlocks
