import KeyedBlocks.Blocks.Database
import KeyedBlocks.Proofs.Backends.FaultFree
import KeyedBlocks.Proofs.Batches.History
import KeyedBlocks.Relational.Database

/-!
What the write of a batch does to the blocks. It is told by the calls since the batch was created or
last reset, though the batch has forgotten some of them, has put the others in another order and may
have several keys for one address: what is pending for an address always ends with the put that was
buffered for it last.
-/
namespace KeyedBlocks

def Scheme.Reaches (scheme : Scheme) (keys : List Bytes) (a : Address) : Prop :=
  ∃ key ∈ keys, scheme.deriveRaw key = .ok a

section Log

variable {scheme : Scheme} {log : List Deed} {a : Address}

theorem exists_lastPut (h : ∃ deed ∈ log, deed.Writes a) : ∃ value, LastPut log a value := by
  refine exists_since ?_ h
  rintro _ ⟨raw, value, rfl⟩
  exact ⟨value, raw, rfl⟩

/-- Of what is left of the puts for an address, the last one has the value put there last. A later
put of its key would have been for the same address. -/
theorem LastPut.ofList_putsOf {value : Bytes} (hfiled : ∀ deed ∈ log, deed.FiledBy scheme)
    (hlast : LastPut log a value) :
    Since (fun entry => scheme.deriveRaw entry.1 = .ok a ∧ entry.2 = (a, value))
      (fun entry => entry.2.1 = a) (Assoc.ofList (putsOf log)) := by
  induction log using List.reverseRecOn with
  | nil => exact absurd hlast not_since_nil
  | append_singleton log deed ih =>
    have hbefore : ∀ deed ∈ log, deed.FiledBy scheme := fun other hmem =>
      hfiled other (List.mem_append_left _ hmem)
    cases deed with
    | delete raw b =>
      rw [putsOf_concat_delete]
      exact ih hbefore (lastPut_concat_delete.1 hlast)
    | put raw b new =>
      have hraw : scheme.deriveRaw raw = .ok b := hfiled (.put raw b new) (by simp)
      rw [putsOf_concat_put, Assoc.ofList_concat]
      rcases lastPut_concat_put.1 hlast with ⟨rfl, rfl⟩ | ⟨hother, hold⟩
      · exact since_concat.2 (Or.inl ⟨hraw, rfl⟩)
      · refine since_concat.2 (Or.inr ⟨Ne.symm hother, (ih hbefore hold).filter ?_⟩)
        rintro ⟨key, _⟩ ⟨hkey, rfl⟩
        have hne : key ≠ raw := by
          rintro rfl
          exact hother (Except.ok.inj (hkey.symm.trans hraw))
        simpa using hne

end Log

namespace Buffer

variable {b : Buffer} {h : Handle} {log : List Deed} (hholds : b.Holds h log)
  (hfiled : ∀ deed ∈ log, deed.FiledBy h.scheme) {a : Address}
include hholds hfiled

/-- The addresses of the pending deletes are those of the keys deleted last. -/
theorem Holds.mem_deletes : a ∈ b.deleteList.map Prod.snd ↔
    h.scheme.Reaches (recent h.batchCapacity (keysOf log .delete)) a := by
  rw [← hholds.keys .delete]
  constructor
  · intro hmem
    obtain ⟨⟨raw, _⟩, hentry, rfl⟩ := List.mem_map.1 hmem
    exact ⟨raw, List.mem_map.2 ⟨_, hentry, rfl⟩, hfiled _ (hholds.mem_log_of_delete hentry)⟩
  · rintro ⟨key, hkey, hderive⟩
    obtain ⟨⟨_, found⟩, hentry, rfl⟩ := List.mem_map.1 hkey
    have hfound := hfiled _ (hholds.mem_log_of_delete hentry)
    obtain rfl : found = a := Except.ok.inj (hfound.symm.trans hderive)
    exact List.mem_map.2 ⟨_, hentry, rfl⟩

/-- The addresses of the pending puts are those of the keys put last. -/
theorem Holds.mem_puts : (∃ entry ∈ b.putList, entry.2.1 = a) ↔
    h.scheme.Reaches (recent h.batchCapacity (keysOf log .put)) a := by
  rw [← hholds.keys .put]
  constructor
  · rintro ⟨⟨raw, _, value⟩, hentry, rfl⟩
    exact ⟨raw, List.mem_map.2 ⟨_, hentry, rfl⟩, hfiled _ (hholds.mem_log_of_put hentry)⟩
  · rintro ⟨key, hkey, hderive⟩
    obtain ⟨⟨_, found, value⟩, hentry, rfl⟩ := List.mem_map.1 hkey
    have hfound := hfiled _ (hholds.mem_log_of_put hentry)
    exact ⟨_, hentry, Except.ok.inj (hfound.symm.trans hderive)⟩

/-- If a put to an address is pending, then so is the last one, and behind all others. -/
theorem Holds.last_put (hpending : ∃ entry ∈ b.putList, entry.2.1 = a) :
    ∃ value, LastPut log a value ∧ ∀ rows,
      Assoc.find? a (writeAll rows (b.putList.map Prod.snd)) = some value := by
  have hwritten : ∃ deed ∈ log, deed.Writes a := by
    obtain ⟨⟨raw, _, value⟩, hentry, rfl⟩ := hpending
    exact ⟨_, hholds.mem_log_of_put hentry, raw, value, rfl⟩
  obtain ⟨value, hlast⟩ := exists_lastPut hwritten
  have hsuffix : b.putList <:+ Assoc.ofList (putsOf log) := by
    unfold putList
    rw [hholds.puts.entries]
    exact List.drop_suffix _ _
  have hsince := (hlast.ofList_putsOf hfiled).of_suffix hsuffix hpending
  have hblocks : Since (fun block => block = (a, value)) (fun block => block.1 = a)
      (b.putList.map Prod.snd) :=
    hsince.map (fun _ hmark => hmark.2) fun _ hspoil => hspoil
  exact ⟨value, hlast, fun rows => find?_writeAll_of_last hblocks rows⟩

end Buffer

/-- What becomes of the block at each address when a batch with a given log is written. -/
structure BatchEffect (h : Handle) (log : List Deed)
    (before after : Address → Except StoreError (Option Bytes)) : Prop where
  /-- There is none where a key leads that is one of the last deleted. -/
  deleted : ∀ a, h.scheme.Reaches (recent h.batchCapacity (keysOf log .delete)) a →
    after a = .ok none
  /-- Elsewhere, where a key leads that is one of the last put, it is the one put there last. -/
  put : ∀ a, ¬ h.scheme.Reaches (recent h.batchCapacity (keysOf log .delete)) a →
    h.scheme.Reaches (recent h.batchCapacity (keysOf log .put)) a →
    ∃ value, LastPut log a value ∧ after a = .ok (some value)
  /-- Everywhere else it is the one that was there. -/
  kept : ∀ a, ¬ h.scheme.Reaches (recent h.batchCapacity (keysOf log .delete)) a →
    ¬ h.scheme.Reaches (recent h.batchCapacity (keysOf log .put)) a → after a = before a

theorem Buffer.Holds.effect {b : Buffer} {h : Handle} {log : List Deed} (hholds : b.Holds h log)
    (hfiled : ∀ deed ∈ log, deed.FiledBy h.scheme) (rows : List (Address × Bytes)) :
    BatchEffect h log (fun a => .ok (Assoc.find? a rows)) fun a => .ok (Assoc.find? a
      (eraseAll (writeAll rows (b.putList.map Prod.snd)) (b.deleteList.map Prod.snd))) where
  deleted a hdeleted := by
    have hmem := (hholds.mem_deletes hfiled).2 hdeleted
    rw [find?_eraseAll_of_mem hmem]
  put a hkept hput := by
    have hnot : a ∉ b.deleteList.map Prod.snd := fun hmem =>
      hkept ((hholds.mem_deletes hfiled).1 hmem)
    obtain ⟨value, hlast, hfind⟩ := hholds.last_put hfiled ((hholds.mem_puts hfiled).2 hput)
    refine ⟨value, hlast, ?_⟩
    rw [find?_eraseAll_of_not_mem hnot, hfind]
  kept a hkept hother := by
    have hnot : a ∉ b.deleteList.map Prod.snd := fun hmem =>
      hkept ((hholds.mem_deletes hfiled).1 hmem)
    have hunwritten : a ∉ (b.putList.map Prod.snd).map Prod.fst := by
      intro hmem
      rw [List.map_map] at hmem
      exact hother ((hholds.mem_puts hfiled).1 (List.mem_map.1 hmem))
    rw [find?_eraseAll_of_not_mem hnot, find?_writeAll_of_not_mem hunwritten]

namespace Session

variable {β ω : Type} [Backend β ω]

/-- What is read at an address past the cache. -/
def block (s : Session (Site β) Buffer) (a : Address) : Except StoreError (Option Bytes) :=
  Backend.read s.site.backend a

/-- What comes of a batch that was empty at `s` when it is written after some calls. -/
structure BatchWritten (h : Handle) (pace : β → Nat → β) (s : Session (Site β) Buffer)
    (batch : Nat) (calls : List Call) : Prop where
  /-- The write succeeds. -/
  done : ((s.run (h.facade pace) calls).step (h.facade pace) (.batchWrite batch)).2 = .did (.ok ())
  /-- It does to the blocks what the log of the batch says. -/
  blocks : BatchEffect h (batchLog h.scheme batch calls) (s.run (h.facade pace) calls).block
    ((s.run (h.facade pace) calls).step (h.facade pace) (.batchWrite batch)).1.block
  /-- A key that was buffered and is no more pending has been named in a warning since. -/
  warned : ∀ before call after deed b, calls = before ++ call :: after →
    buffered? h.scheme batch call = some deed →
    (s.run (h.facade pace) calls).batches[batch]? = some b → deed.key ∉ b.keys deed.bucket →
    ∃ mid later rest, after = mid ++ later :: rest ∧
      Warns h pace (s.run (h.facade pace) (before ++ call :: mid)) batch deed.bucket deed.key later

variable {h : Handle} {pace : β → Nat → β} {s : Session (Site β) Buffer} {batch : Nat} {b : Buffer}
  {calls : List Call}

theorem warned_of_missing (hbatch : s.batches[batch]? = some b) (hempty : b.Holds h [])
    {before after : List Call} {call : Call} {deed : Deed} {last : Buffer}
    (hkept : ∀ other ∈ before ++ call :: after, other ≠ .batchReset batch)
    (hdeed : buffered? h.scheme batch call = some deed)
    (hlast : (s.run (h.facade pace) (before ++ call :: after)).batches[batch]? = some last)
    (hgone : deed.key ∉ last.keys deed.bucket) :
    ∃ mid later rest, after = mid ++ later :: rest ∧ Warns h pace
      (s.run (h.facade pace) (before ++ call :: mid)) batch deed.bucket deed.key later := by
  have hsplit : ∀ more, before ++ call :: more = (before ++ [call]) ++ more := by simp
  have hfront : ∀ other ∈ before ++ [call], other ≠ .batchReset batch := by
    intro other hmem
    refine hkept other ?_
    rw [hsplit]
    exact List.mem_append_left _ hmem
  have hback : ∀ other ∈ after, other ≠ .batchReset batch := by
    intro other hmem
    refine hkept other ?_
    rw [hsplit]
    exact List.mem_append_right _ hmem
  obtain ⟨old, hold, hearlier⟩ := run_holds pace hbatch hempty fun other hmem =>
    hfront other (List.mem_append_left _ hmem)
  obtain ⟨next, hnext, htouches⟩ := step_touches pace hold hearlier.scheme (hfront call (by simp))
  have hholds := htouches.holds hearlier
  have hpending : deed.key ∈ next.keys deed.bucket := htouches.key_mem hearlier hdeed
  rw [← run_concat] at hnext
  rw [hsplit, run_append] at hlast
  obtain ⟨mid, later, rest, rfl, hwarns⟩ := run_warns pace hnext hholds hback hpending hlast hgone
  refine ⟨mid, later, rest, rfl, ?_⟩
  rw [hsplit, run_append]
  exact hwarns

/-- Where there are no faults, a batch is written as its log says. -/
theorem batchWritten_of_empty {holds : β → Nat → List (Address × Bytes) → Prop}
    (H : FaultFree β pace holds) (hbatch : s.batches[batch]? = some b) (hempty : b.Holds h [])
    (hfills : ∀ call ∈ calls, call.Fills batch)
    (hserves : ∃ ms rows, holds (s.run (h.facade pace) calls).site.backend ms rows) :
    BatchWritten h pace s batch calls := by
  have hkept : ∀ call ∈ calls, call ≠ .batchReset batch := fun call hmem => (hfills call hmem).kept
  obtain ⟨last, hlast, hholds⟩ := run_holds pace hbatch hempty hkept
  obtain ⟨ms, rows, hrows⟩ := hserves
  obtain ⟨backend, hflush, hwritten⟩ := H.flush last hrows
  have hwrite : (h.facade pace).batchWrite (s.run (h.facade pace) calls).site last = _ := hflush
  refine ⟨?_, ?_, ?_⟩
  · simp only [step, hlast, hwrite]
  · have hbefore : (s.run (h.facade pace) calls).block = fun a => .ok (Assoc.find? a rows) :=
      funext fun a => H.read a hrows
    have hafter : ((s.run (h.facade pace) calls).step (h.facade pace) (.batchWrite batch)).1.block =
        fun a => .ok (Assoc.find? a (eraseAll (writeAll rows (last.putList.map Prod.snd))
          (last.deleteList.map Prod.snd))) := by
      simp only [step, hlast, hwrite]
      exact funext fun a => H.read a hwritten
    rw [hbefore, hafter]
    exact hholds.effect (batchLog_filed hfills) rows
  · rintro before call after deed next rfl hdeed hnext hgone
    exact warned_of_missing hbatch hempty hkept hdeed hnext hgone

/-- A batch of either kind of database, since it was created or last reset. -/
theorem batchWritten {batch : Nat} {start : Call} {earlier calls : List Call}
    (hfills : ∀ call ∈ calls, call.Fills batch) :
    (∀ (d : BlockDatabase) (site : Site BlockService),
      let F := d.handle.facade BlockService.pace
      let s := run F ⟨site, []⟩ earlier
      s.Empties d.handle BlockService.pace batch start →
      (∃ ms rows, ((s.step F start).1.run F calls).site.backend.Serves ms rows) →
      BatchWritten d.handle BlockService.pace (s.step F start).1 batch calls) ∧
    ∀ (d : SqlDatabase) (site : Site Relational),
      let F := d.handle.facade Relational.pace
      let s := run F ⟨site, []⟩ earlier
      s.Empties d.handle Relational.pace batch start →
      (∃ ms rows, ((s.step F start).1.run F calls).site.backend.Serves ms rows) →
      BatchWritten d.handle Relational.pace (s.step F start).1 batch calls := by
  constructor
  · intro d site F s hempties hserves
    obtain ⟨b, hbatch, hempty⟩ := hempties.holds (batches_hold BlockService.pace site earlier)
    exact batchWritten_of_empty BlockService.faultFree hbatch hempty hfills hserves
  · intro d site F s hempties hserves
    obtain ⟨b, hbatch, hempty⟩ := hempties.holds (batches_hold Relational.pace site earlier)
    exact batchWritten_of_empty Relational.faultFree hbatch hempty hfills hserves

end Session

namespace Session.Overflow

def blocks : BlockDatabase := ⟨{ batchCapacity := 2 }⟩

def tables : SqlDatabase := ⟨{ store := { batchCapacity := 2 } }⟩

def key (n : UInt8) : Bytes := List.replicate 32 n

/-- A key that shares its address with a bare digest. -/
def preimage (n : UInt8) : Bytes := preimageTag ++ partMark ++ key n

/-- When a third key is put there is no room for the preimage any more. -/
def calls : List Call :=
  [.batchPut 0 (.raw (preimage 7)) [1], .batchPut 0 (.raw (key 7)) [2],
    .batchPut 0 (.raw (key 8)) [3], .batchDelete 0 (.raw (preimage 9))]

theorem fills : ∀ call ∈ calls, call.Fills 0 := by
  intro call hmem
  simp only [calls, List.mem_cons, List.not_mem_nil, or_false] at hmem
  rcases hmem with rfl | rfl | rfl | rfl
  all_goals exact ⟨nofun, fun _ => ⟨_, rfl⟩⟩

def blocksStart : Session (Site BlockService) Buffer :=
  run (blocks.handle.facade BlockService.pace) ⟨⟨⟨{}, true⟩, .create {}, 0⟩, []⟩
    [.put (.raw (key 9)) [9]]

def tablesStart : Session (Site Relational) Buffer :=
  run (tables.handle.facade Relational.pace) ⟨⟨.fresh 1, .create {}, 0⟩, []⟩
    [.put (.raw (key 9)) [9]]

theorem blocks_empties : blocksStart.Empties blocks.handle BlockService.pace 0 .newBatch :=
  ⟨Or.inl ⟨rfl, rfl⟩, rfl⟩

theorem tables_empties : tablesStart.Empties tables.handle Relational.pace 0 .newBatch :=
  ⟨Or.inl ⟨rfl, rfl⟩, rfl⟩

/-- A batch of either kind of database drops an alias and keeps what was put last for its address.
-/
theorem batchWritten_overflow :
    (∀ call ∈ calls, call.Fills 0) ∧
      BatchWritten blocks.handle BlockService.pace
        (blocksStart.step (blocks.handle.facade BlockService.pace) .newBatch).1 0 calls ∧
      BatchWritten tables.handle Relational.pace
        (tablesStart.step (tables.handle.facade Relational.pace) .newBatch).1 0 calls ∧
      ∃ a, tables.handle.scheme.deriveRaw (preimage 7) = .ok a ∧
        (run (tables.handle.facade Relational.pace) tablesStart
          (.newBatch :: calls ++ [.batchWrite 0])).block a = .ok (some [2]) := by
  refine ⟨fills, ?_, ?_, ?_⟩
  · exact (batchWritten fills).1 blocks ⟨⟨{}, true⟩, .create {}, 0⟩ blocks_empties
      ⟨0, _, rfl, rfl, rfl⟩
  · exact (batchWritten fills).2 tables ⟨.fresh 1, .create {}, 0⟩ tables_empties
      ⟨0, _, rfl, rfl, rfl, rfl, rfl, _, rfl⟩
  · exact ⟨_, rfl, rfl⟩

end Session.Overflow

end KeyedBlocks
