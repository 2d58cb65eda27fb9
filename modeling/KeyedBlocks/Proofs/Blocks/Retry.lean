import KeyedBlocks.Blocks.Database
import KeyedBlocks.Proofs.Cache.Forgetting
import KeyedBlocks.Proofs.Sessions.Facade

/-!
Batches that are written to a block service in several attempts, while the faults of its store come
and go. Each attempt gets as far as it gets and leaves the batch as it is. However many there were,
the first that succeeds leaves the blocks and the cache as if it had been the only one, and another
one after it changes nothing.
-/
namespace KeyedBlocks

namespace BlockService

abbrev State := Session (Site BlockService) Buffer

def underFaults (s : State) (f : Faults) : State :=
  { s with site := { s.site with backend := { s.site.backend with
      store := { s.site.backend.store with faults := f } } } }

def attempt (h : Handle) (batch : Nat) (s : State) (f : Faults) : State × Session.Reply :=
  (underFaults s f).step (h.facade pace) (.batchWrite batch)

def attempts (h : Handle) (batch : Nat) (s : State) (faults : List Faults) : State :=
  faults.foldl (fun s f => (attempt h batch s f).1) s

/-- The same blocks are stored, and the caches are the same. -/
structure Alike (s s' : State) : Prop where
  blocks : s.site.backend.store.blocks = s'.site.backend.store.blocks
  cache : s.site.cache = s'.site.cache

/-- What writing a batch comes to. -/
structure Retries (h : Handle) (s : State) (batch : Nat) (b : Buffer) : Prop where
  /-- The batch ends in one of three ways. What it has written and deleted until then is in the
  store, the cache has forgotten what was deleted, and all open batches are as they were. -/
  ends : ∃ puts deletes result calls, s.site.backend.Ends b puts deletes result ∧
    s.step (h.facade pace) (.batchWrite batch) =
      ({ s with site := site s.site puts deletes calls }, .did result) ∧
    s.site.cache.Forgot (site s.site puts deletes calls).cache deletes
  /-- After any attempts, one that succeeds would have succeeded without them, and it comes to the
  same as any attempt that succeeds without them. -/
  settled : ∀ earlier f, (attempt h batch (attempts h batch s earlier) f).2 = .did (.ok ()) →
    (attempt h batch s f).2 = .did (.ok ()) ∧
    ∀ g, (attempt h batch s g).2 = .did (.ok ()) →
      Alike (attempt h batch (attempts h batch s earlier) f).1 (attempt h batch s g).1
  /-- After success an attempt under the same faults succeeds again, and no attempt that succeeds
  changes anything. -/
  again : ∀ f, (attempt h batch s f).2 = .did (.ok ()) →
    (attempt h batch (attempt h batch s f).1 f).2 = .did (.ok ()) ∧
    ∀ g, (attempt h batch (attempt h batch s f).1 g).2 = .did (.ok ()) →
      Alike (attempt h batch (attempt h batch s f).1 g).1 (attempt h batch s f).1

variable {h : Handle} {s s' : State} {batch : Nat} {b : Buffer}

/-- No batch gets further than to its end. -/
theorem Ends.part {service : BlockService} {puts : List (Address × Bytes)} {deletes : List Address}
    {result : Except StoreError Unit} (hends : service.Ends b puts deletes result) :
    puts ⊆ b.putBlocks ∧ deletes <+: b.deleteAddresses := by
  cases hends with
  | put hfault =>
    refine ⟨?_, List.nil_prefix⟩
    split
    · exact List.nil_subset _
    · exact (List.take_sublist _ _).subset
  | delete _ hfault =>
    obtain ⟨a, after, hsplit, _⟩ := hfault.met
    exact ⟨List.Subset.refl _, _, hsplit.symm⟩
  | done => exact ⟨List.Subset.refl _, List.prefix_refl _⟩

/-- A batch is written as its flush ends. -/
theorem write_ends (hbatch : s.batches[batch]? = some b) :
    ∃ puts deletes result calls, s.site.backend.Ends b puts deletes result ∧
      s.step (h.facade pace) (.batchWrite batch) =
        ({ s with site := site s.site puts deletes calls }, .did result) := by
  obtain ⟨puts, deletes, result, calls, hends, hflush⟩ := flush_ends s.site b
  refine ⟨puts, deletes, result, calls, hends, ?_⟩
  have hwrite : (h.facade pace).batchWrite s.site b = (site s.site puts deletes calls, result) :=
    hflush
  simp only [Session.step, hbatch, hwrite]

/-- One attempt: how far it gets, and what it leaves. -/
theorem attempt_ends (hbatch : s.batches[batch]? = some b) (f : Faults) :
    ∃ puts deletes result, (underFaults s f).site.backend.Ends b puts deletes result ∧
      (attempt h batch s f).2 = .did result ∧
      (attempt h batch s f).1.site.backend.store.blocks =
        eraseAll (writeAll s.site.backend.store.blocks puts) deletes ∧
      (attempt h batch s f).1.site.cache = s.site.cache.invalidateAll deletes ∧
      (attempt h batch s f).1.batches = s.batches := by
  obtain ⟨puts, deletes, result, calls, hends, hstep⟩ :=
    write_ends (h := h) (s := underFaults s f) hbatch
  have hattempt : attempt h batch s f = _ := hstep
  rw [hattempt]
  exact ⟨puts, deletes, result, hends, rfl, rfl, rfl, rfl⟩

/-- An attempt succeeds just if nothing that the batch touches is faulty. -/
theorem attempt_ok_iff (hbatch : s.batches[batch]? = some b) (f : Faults) :
    (attempt h batch s f).2 = .did (.ok ()) ↔
      f.Clean (b.putBlocks.map Prod.fst) ∧ f.Clean b.deleteAddresses := by
  obtain ⟨puts, deletes, result, hends, hreply, _⟩ := attempt_ends (h := h) hbatch f
  rw [hreply]
  cases hends with
  | put hfault =>
    have hnot : ¬ f.Clean (b.putBlocks.map Prod.fst) := hfault.not_clean
    simp [hnot]
  | delete _ hfault =>
    have hnot : ¬ f.Clean b.deleteAddresses := hfault.not_clean
    simp [hnot]
  | done hputs hdeletes => exact iff_of_true rfl ⟨hputs, hdeletes⟩

/-- An attempt that succeeds leaves the whole batch. -/
theorem attempt_ok (hbatch : s.batches[batch]? = some b) {f : Faults}
    (hok : (attempt h batch s f).2 = .did (.ok ())) :
    (attempt h batch s f).1.site.backend.store.blocks =
        eraseAll (writeAll s.site.backend.store.blocks b.putBlocks) b.deleteAddresses ∧
      (attempt h batch s f).1.site.cache = s.site.cache.invalidateAll b.deleteAddresses := by
  obtain ⟨puts, deletes, result, hends, hreply, hblocks, hcache, _⟩ :=
    attempt_ends (h := h) hbatch f
  rw [hreply] at hok
  cases hends with
  | put | delete => cases hok
  | done => exact ⟨hblocks, hcache⟩

/-- A state to which attempts to write a batch may lead: rows that the batch does not touch are as
they were, and the cache has forgotten deletes of the batch up to some place. -/
structure Partly (b : Buffer) (s s' : State) : Prop where
  untouched : untouched s'.site.backend.store.blocks b.putBlocks b.deleteAddresses =
    untouched s.site.backend.store.blocks b.putBlocks b.deleteAddresses
  cache : ∃ front, front <+: b.deleteAddresses ∧ s'.site.cache = s.site.cache.invalidateAll front
  batches : s'.batches = s.batches

theorem Partly.attempt (hpartly : Partly b s s') (hbatch : s.batches[batch]? = some b)
    (f : Faults) : Partly b s (attempt h batch s' f).1 := by
  have hbatch' : s'.batches[batch]? = some b := hpartly.batches ▸ hbatch
  obtain ⟨puts, deletes, result, hends, _, hblocks, hcache, hbatches⟩ :=
    attempt_ends (h := h) hbatch' f
  obtain ⟨hputs, hdeletes⟩ := hends.part
  obtain ⟨front, hfront, hbefore⟩ := hpartly.cache
  refine ⟨?_, ?_, hbatches.trans hpartly.batches⟩
  · rw [hblocks, untouched_part hputs hdeletes.subset, hpartly.untouched]
  · -- Of two places in the deletes one is behind the other.
    rw [hcache, hbefore]
    rcases List.prefix_or_prefix_of_prefix hfront hdeletes with hle | hle
    · exact ⟨deletes, hdeletes, (s.site.cache.invalidateAll_prefix hle).1⟩
    · exact ⟨front, hfront, (s.site.cache.invalidateAll_prefix hle).2⟩

theorem partly_attempts (hbatch : s.batches[batch]? = some b) (faults : List Faults) :
    Partly b s (attempts h batch s faults) := by
  induction faults using List.reverseRecOn with
  | nil => exact ⟨rfl, ⟨[], List.nil_prefix, rfl⟩, rfl⟩
  | append_singleton faults f ih =>
    unfold attempts
    rw [List.foldl_append]
    exact ih.attempt hbatch f

/-- An attempt that succeeds makes up for all that was done in part. -/
theorem Partly.settled (hpartly : Partly b s s') (hbatch : s.batches[batch]? = some b)
    {f g : Faults} (hok : (BlockService.attempt h batch s' f).2 = .did (.ok ()))
    (hok' : (BlockService.attempt h batch s g).2 = .did (.ok ())) :
    Alike (BlockService.attempt h batch s' f).1 (BlockService.attempt h batch s g).1 := by
  have hbatch' : s'.batches[batch]? = some b := hpartly.batches ▸ hbatch
  obtain ⟨hblocks, hcache⟩ := attempt_ok hbatch' hok
  obtain ⟨hblocks', hcache'⟩ := attempt_ok hbatch hok'
  obtain ⟨front, hfront, hbefore⟩ := hpartly.cache
  constructor
  · rw [hblocks, hblocks', eraseAll_writeAll_congr hpartly.untouched]
  · rw [hcache, hcache', hbefore, (s.site.cache.invalidateAll_prefix hfront).1]

/-- A batch that is written to a block service can be retried after any failures. -/
theorem retries (hbatch : s.batches[batch]? = some b) : Retries h s batch b := by
  refine ⟨?_, ?_, ?_⟩
  · obtain ⟨puts, deletes, result, calls, hends, hstep⟩ := write_ends (h := h) hbatch
    exact ⟨puts, deletes, result, calls, hends, hstep, s.site.cache.invalidateAll_forgot deletes⟩
  · intro earlier f hok
    have hpartly := partly_attempts (h := h) hbatch earlier
    have hbatch' : (attempts h batch s earlier).batches[batch]? = some b :=
      hpartly.batches ▸ hbatch
    have hclean := (attempt_ok_iff hbatch' f).1 hok
    exact ⟨(attempt_ok_iff hbatch f).2 hclean, fun g hok' => hpartly.settled hbatch hok hok'⟩
  · intro f hok
    have hpartly := partly_attempts (h := h) hbatch [f]
    have hbatch' : (attempt h batch s f).1.batches[batch]? = some b := hpartly.batches ▸ hbatch
    have hclean := (attempt_ok_iff hbatch f).1 hok
    exact ⟨(attempt_ok_iff hbatch' f).2 hclean, fun g hok' => hpartly.settled hbatch hok' hok⟩

namespace FailingDelete

def database : BlockDatabase := ⟨{}⟩

def key (n : UInt8) : Bytes := List.replicate 32 n

/-- A block is stored, and a batch is open that puts one key and deletes two others. -/
def session : State :=
  Session.run (database.handle.facade pace) ⟨⟨⟨{}, true⟩, .create {}, 0⟩, []⟩
    [.put (.raw (key 1)) [1], .newBatch, .batchPut 0 (.raw (key 2)) [2],
      .batchDelete 0 (.raw (key 3)), .batchDelete 0 (.raw (key 1))]

/-- The first delete fails, and then the batch is written as a whole. -/
theorem retries_failingDelete :
    ∃ b, session.batches[0]? = some b ∧ Retries database.handle session 0 b ∧
      (∃ e, (attempt database.handle 0 session { addresses := b.deleteAddresses.take 1 }).2 =
        .did (.error e)) ∧
      (attempt database.handle 0 (attempts database.handle 0 session
        [{ addresses := b.deleteAddresses.take 1 }]) {}).2 = .did (.ok ()) :=
  ⟨_, rfl, retries rfl, ⟨_, rfl⟩, rfl⟩

end FailingDelete

end BlockService

end KeyedBlocks
