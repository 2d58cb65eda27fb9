import KeyedBlocks.Proofs.Blocks.Flush
import KeyedBlocks.Proofs.Relational.Statements

/-!
Backends without faults. Whatever its kind, such a backend is a flat map from addresses to blocks:
reads and probes look an address up, a put writes one, a delete drops one, and a flushed batch
makes all its puts and then all its deletes. The cache forgets the deleted addresses and no others.
-/
namespace KeyedBlocks

/-- Steps that only forget leave the backend alone and do not fail. -/
theorem Site.run_forgets {β ω : Type} [Backend β ω] (s : Site β) (addresses : List Address) :
    s.run (addresses.map .forget) =
      (⟨s.backend, s.cache.invalidateAll addresses, s.now⟩, .ok ()) := by
  induction addresses generalizing s with
  | nil => rfl
  | cons a rest ih => exact ih ⟨s.backend, s.cache.invalidate a, s.now⟩

/-- What a kind of backend does where `holds backend ms rows` says that it has no faults, takes `ms`
for a read and holds just `rows`; `pace` changes how long its reads take. -/
structure FaultFree (β : Type) {ω : Type} [Backend β ω] (pace : β → Nat → β)
    (holds : β → Nat → List (Address × Bytes) → Prop) : Prop where
  wait : ∀ {b ms rows}, holds b ms rows →
    min ((Backend.readDelay b).getD 0) Duration.longestWait = min ms Duration.longestWait
  paced : ∀ {b ms rows} next, holds b ms rows → holds (pace b next) next rows
  read : ∀ {b ms rows} a, holds b ms rows → Backend.read b a = .ok (Assoc.find? a rows)
  counted : ∀ {b ms rows} n, holds b ms rows → holds (Backend.countReads b n) ms rows
  probe : ∀ {b ms rows} a, holds b ms rows →
    holds (Backend.has b a).1 ms rows ∧ (Backend.has b a).2 = .ok (Assoc.contains a rows)
  put : ∀ {s : Site β} {ms rows} raw a value, holds s.backend ms rows →
    ∃ backend, s.put raw a value = (⟨backend, s.cache, s.now⟩, .ok ()) ∧
      holds backend ms (Assoc.insert a value rows)
  delete : ∀ {s : Site β} {ms rows} raw a, holds s.backend ms rows →
    ∃ backend, s.delete raw a = (⟨backend, s.cache.invalidate a, s.now⟩, .ok ()) ∧
      holds backend ms (Assoc.erase a rows)
  flush : ∀ {s : Site β} {ms rows} (b : Buffer), holds s.backend ms rows →
    ∃ backend, s.flush b =
        (⟨backend, s.cache.invalidateAll (b.deleteList.map Prod.snd), s.now⟩, .ok ()) ∧
      holds backend ms (eraseAll (writeAll rows (b.putList.map Prod.snd))
        (b.deleteList.map Prod.snd))

namespace BlockStore

variable {s : BlockStore} (h : s.faults = {})
include h

theorem check_of_no_faults (a : Address) : s.faults.check a = .ok () := by
  simp [Faults.check, h]

theorem clean_of_no_faults (addresses : List Address) : s.faults.Clean addresses :=
  fun a _ => check_of_no_faults h a

theorem probe_of_no_faults (a : Address) :
    ∃ calls, s.has a = ({ s with calls }, .ok (s.peek a).isSome) := by
  simp only [has, check_of_no_faults h]
  exact ⟨_, rfl⟩

theorem read_of_no_faults (a : Address) : s.read a = .ok (s.peek a) := by
  simp only [read, check_of_no_faults h]
  rfl

end BlockStore

namespace BlockService

/-- A block service without faults. -/
structure Serves (s : BlockService) (ms : Nat) (rows : List (Address × Bytes)) : Prop where
  faults : s.store.faults = {}
  blocks : s.store.blocks = rows
  latency : s.store.latency.getD 0 = ms

def pace (s : BlockService) (ms : Nat) : BlockService :=
  { s with store := { s.store with latency := some ms } }

variable {s : BlockService} {ms : Nat} {rows : List (Address × Bytes)} (h : s.Serves ms rows)
include h

theorem Serves.perform_store (a : Address) (value : Bytes) :
    ∃ next, s.perform (.store a value) = (next, .ok ()) ∧
      next.Serves ms (Assoc.insert a value rows) := by
  obtain ⟨calls, hstore⟩ :=
    BlockStore.store_of_ok (BlockStore.check_of_no_faults h.faults a) value
  simp only [perform, hstore]
  exact ⟨_, rfl, h.faults, by rw [h.blocks], h.latency⟩

omit h in
theorem delete_serves {s : Site BlockService} (h : s.backend.Serves ms rows) (a : Address) :
    ∃ backend, s.run [.perform (.remove a), .forget a] =
        (⟨backend, s.cache.invalidate a, s.now⟩, .ok ()) ∧
      backend.Serves ms (Assoc.erase a rows) := by
  obtain ⟨calls, hremove⟩ := step_remove (BlockStore.check_of_no_faults h.faults a)
  refine ⟨_, hremove, h.faults, ?_, h.latency⟩
  rw [← h.blocks]
  rfl

omit h in
theorem flush_serves {s : Site BlockService} (h : s.backend.Serves ms rows) (b : Buffer) :
    ∃ backend, s.flush b =
        (⟨backend, s.cache.invalidateAll (b.deleteList.map Prod.snd), s.now⟩, .ok ()) ∧
      backend.Serves ms (eraseAll (writeAll rows (b.putList.map Prod.snd))
        (b.deleteList.map Prod.snd)) := by
  obtain ⟨puts, deletes, result, calls, hends, hflush⟩ := flush_ends s b
  have hclean := BlockStore.clean_of_no_faults h.faults
  cases hends with
  | put hfault => exact absurd (hclean _) hfault.not_clean
  | delete _ hfault => exact absurd (hclean _) hfault.not_clean
  | done =>
    refine ⟨_, hflush, h.faults, ?_, h.latency⟩
    rw [← h.blocks]
    rfl

omit h in
theorem faultFree : FaultFree BlockService pace Serves where
  wait {s ms rows} h := by
    show min ((s.readDelay).getD 0) _ = _
    unfold readDelay
    have hms := h.latency
    cases hlatency : s.store.latency with
    | none =>
      rw [hlatency] at hms
      cases hms
      rfl
    | some latency =>
      rw [hlatency] at hms
      obtain rfl : latency = ms := hms
      by_cases hzero : 0 < latency
      · simp [Option.filter, hzero]
      · have hnone : latency = 0 := by omega
        subst hnone
        rfl
  paced next h := ⟨h.faults, h.blocks, rfl⟩
  read {s ms rows} a h := by
    show s.store.read a = _
    rw [BlockStore.read_of_no_faults h.faults, BlockStore.peek, h.blocks]
  counted n h := ⟨h.faults, h.blocks, h.latency⟩
  probe {s ms rows} a h := by
    obtain ⟨calls, hprobe⟩ := BlockStore.probe_of_no_faults h.faults a
    have hhas : Backend.has s a = ({ s with store := { s.store with calls } },
        .ok (s.store.peek a).isSome) := by
      simp only [Backend.has, hprobe]
    rw [hhas]
    exact ⟨⟨h.faults, h.blocks, h.latency⟩, by rw [BlockStore.peek, h.blocks]; rfl⟩
  put {s ms rows} raw a value h := by
    obtain ⟨next, hperform, hnext⟩ := h.perform_store a value
    have hbackend : Backend.perform s.backend (.store a value) = (next, .ok ()) := hperform
    refine ⟨next, ?_, hnext⟩
    show s.run [.perform (.store a value)] = _
    simp only [Site.run, runSteps, Site.step, hbackend]
  delete raw a h := delete_serves h a
  flush b h := flush_serves h b

end BlockService

namespace Relational

/-- A relational database that is open to writes, with both tables and no guards on them. -/
structure Serves (d : Relational) (ms : Nat) (rows : List (Address × Bytes)) : Prop where
  guards : d.guards = {}
  writable : d.readOnly = false
  isOpen : d.isOpen = true
  fetchMs : d.fetchMs = ms
  blocks : d.tables.blocks = some rows
  preimages : ∃ entries, d.tables.preimages = .rows entries

def pace (d : Relational) (ms : Nat) : Relational := { d with fetchMs := ms }

theorem execAll_putStatements {rows : List (Address × Bytes)} {entries : List (Bytes × Address)}
    (key : Bytes) (a : Address) (value : Bytes) :
    Tables.execAll {} ⟨some rows, .rows entries⟩ (putStatements key a value) =
      .ok ⟨some (Assoc.insert a value rows), .rows (Assoc.insert key a entries)⟩ := rfl

theorem execAll_deleteStatements {rows : List (Address × Bytes)}
    {entries : List (Bytes × Address)} (key : Bytes) (a : Address) :
    Tables.execAll {} ⟨some rows, .rows entries⟩ (deleteStatements key a) =
      .ok ⟨some (Assoc.erase a rows),
        .rows ((Assoc.erase key entries).filter fun row => row.2 ≠ a)⟩ := rfl

theorem execAll_puts (rows : List (Address × Bytes)) (entries : List (Bytes × Address))
    (puts : List (Bytes × Address × Bytes)) :
    ∃ aliases, Tables.execAll {} ⟨some rows, .rows entries⟩
        (puts.flatMap fun entry => putStatements entry.1 entry.2.1 entry.2.2) =
      .ok ⟨some (writeAll rows (puts.map Prod.snd)), .rows aliases⟩ := by
  induction puts generalizing rows entries with
  | nil => exact ⟨entries, rfl⟩
  | cons entry puts ih =>
    obtain ⟨aliases, hrest⟩ := ih (Assoc.insert entry.2.1 entry.2.2 rows)
      (Assoc.insert entry.1 entry.2.1 entries)
    refine ⟨aliases, ?_⟩
    rw [List.flatMap_cons]
    exact Tables.execAll_append.2 ⟨_, execAll_putStatements .., hrest⟩

theorem execAll_deletes (rows : List (Address × Bytes)) (entries : List (Bytes × Address))
    (deletes : List (Bytes × Address)) :
    ∃ aliases, Tables.execAll {} ⟨some rows, .rows entries⟩
        (deletes.flatMap fun entry => deleteStatements entry.1 entry.2) =
      .ok ⟨some (eraseAll rows (deletes.map Prod.snd)), .rows aliases⟩ := by
  induction deletes generalizing rows entries with
  | nil => exact ⟨entries, rfl⟩
  | cons entry deletes ih =>
    obtain ⟨aliases, hrest⟩ := ih (Assoc.erase entry.2 rows)
      ((Assoc.erase entry.1 entries).filter fun row => row.2 ≠ entry.2)
    refine ⟨aliases, ?_⟩
    rw [List.flatMap_cons]
    exact Tables.execAll_append.2 ⟨_, execAll_deleteStatements .., hrest⟩

variable {d : Relational} {ms : Nat} {rows : List (Address × Bytes)} (h : d.Serves ms rows)
include h

/-- Statements that the bare tables take are taken by the database. -/
theorem Serves.transaction (statements : List Statement) {left : List (Address × Bytes)}
    (hexec : ∀ entries, ∃ aliases,
      Tables.execAll {} ⟨some rows, .rows entries⟩ statements = .ok ⟨some left, .rows aliases⟩) :
    ∃ next, d.transaction statements = (next, .ok ()) ∧ next.Serves ms left := by
  obtain ⟨entries, hentries⟩ := h.preimages
  obtain ⟨aliases, hleft⟩ := hexec entries
  have htables : d.tables = ⟨some rows, .rows entries⟩ := by
    rw [← h.blocks, ← hentries]
  rw [← htables, ← h.guards] at hleft
  refine ⟨{ d with tables := ⟨some left, .rows aliases⟩ }, ?_,
    h.guards, h.writable, h.isOpen, h.fetchMs, rfl, aliases, rfl⟩
  simp [Relational.transaction, h.isOpen, h.writable, hleft]

theorem Serves.batch (b : Buffer) :
    ∃ next, d.transaction (batchStatements b) = (next, .ok ()) ∧
      next.Serves ms (eraseAll (writeAll rows (b.putList.map Prod.snd))
        (b.deleteList.map Prod.snd)) := by
  refine h.transaction _ fun entries => ?_
  obtain ⟨middle, hputs⟩ := execAll_puts rows entries b.putList
  obtain ⟨aliases, hdeletes⟩ :=
    execAll_deletes (writeAll rows (b.putList.map Prod.snd)) middle b.deleteList
  exact ⟨aliases, Tables.execAll_append.2 ⟨_, hputs, hdeletes⟩⟩

omit h in
theorem lists_of_isEmpty {b : Buffer} (hempty : b.isEmpty = true) :
    b.putList = [] ∧ b.deleteList = [] := by
  simp only [Buffer.isEmpty, RecencyMap.isEmpty, Bool.and_eq_true, List.isEmpty_iff] at hempty
  obtain ⟨hputs, hdeletes⟩ := hempty
  constructor
  · simp [Buffer.putList, RecencyMap.toList, RecencyMap.peek, RecencyMap.slot?, hputs]
  · simp [Buffer.deleteList, RecencyMap.toList, RecencyMap.peek, RecencyMap.slot?, hdeletes]

omit h in
theorem flush_serves {s : Site Relational} (h : s.backend.Serves ms rows) (b : Buffer) :
    ∃ backend, s.flush b =
        (⟨backend, s.cache.invalidateAll (b.deleteList.map Prod.snd), s.now⟩, .ok ()) ∧
      backend.Serves ms (eraseAll (writeAll rows (b.putList.map Prod.snd))
        (b.deleteList.map Prod.snd)) := by
  unfold Site.flush Site.make
  show ∃ backend, s.run (flush b) = _ ∧ _
  unfold flush
  cases hempty : b.isEmpty with
  | true =>
    obtain ⟨hputs, hdeletes⟩ := lists_of_isEmpty hempty
    rw [hputs, hdeletes]
    exact ⟨s.backend, rfl, h⟩
  | false =>
    obtain ⟨next, htransaction, hnext⟩ := h.batch b
    have hbackend : Backend.perform s.backend (batchStatements b) = (next, .ok ()) := htransaction
    refine ⟨next, ?_, hnext⟩
    have hforgets := Site.run_forgets ⟨next, s.cache, s.now⟩ (b.deleteList.map Prod.snd)
    rw [List.map_map] at hforgets
    simp only [Bool.false_eq_true, if_false, Site.run, runSteps, Site.step, hbackend]
    exact hforgets

omit h in
theorem faultFree : FaultFree Relational pace Serves where
  wait {d ms rows} h := by
    show min ((d.readDelay).getD 0) _ = _
    simp [readDelay, h.isOpen, h.fetchMs]
  paced next h := ⟨h.guards, h.writable, h.isOpen, rfl, h.blocks, h.preimages⟩
  read {d ms rows} a h := by
    show d.read a = _
    simp only [read, query, h.isOpen, if_true, Tables.read, Tables.blockRows, h.blocks]
    rfl
  counted n h := h
  probe {d ms rows} a h := by
    refine ⟨h, ?_⟩
    show d.has a = _
    simp only [has, query, h.isOpen, if_true, Tables.has, Tables.blockRows, h.blocks]
    rfl
  put {s ms rows} raw a value h := by
    obtain ⟨next, htransaction, hnext⟩ := h.transaction
      (putStatements raw a value) fun entries => ⟨_, execAll_putStatements ..⟩
    have hbackend : Backend.perform s.backend (putStatements raw a value) = (next, .ok ()) :=
      htransaction
    refine ⟨next, ?_, hnext⟩
    show s.run [.perform (putStatements raw a value)] = _
    simp only [Site.run, runSteps, Site.step, hbackend]
  delete {s ms rows} raw a h := by
    obtain ⟨next, htransaction, hnext⟩ := h.transaction
      (deleteStatements raw a) fun entries => ⟨_, execAll_deleteStatements ..⟩
    have hbackend : Backend.perform s.backend (deleteStatements raw a) = (next, .ok ()) :=
      htransaction
    refine ⟨next, ?_, hnext⟩
    show s.run [.perform (deleteStatements raw a), .forget a] = _
    simp only [Site.run, runSteps, Site.step, hbackend]
  flush b h := flush_serves h b

end Relational

end KeyedBlocks
