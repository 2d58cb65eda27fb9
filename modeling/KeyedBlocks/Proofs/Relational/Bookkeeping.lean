import KeyedBlocks.Proofs.Cache.Forgetting
import KeyedBlocks.Proofs.Recency.Entries
import KeyedBlocks.Proofs.Relational.Iteration
import KeyedBlocks.Proofs.Relational.Records

/-!
One relational database under any number of handles. Whatever the handles do, each with a cache of
its own, and whatever faults come between, the tables are what the log of the successful writes
says; and what was deleted under one key is neither listed nor read under any of its aliases.
-/
namespace KeyedBlocks

namespace Buffer

/-- The addresses of all pending writes are those that relational tables derive. -/
structure Derived (b : Buffer) : Prop where
  scheme : b.scheme = .keccakBlockstore
  puts : ∀ raw a value, b.puts.peek raw = some (a, value) → Derives raw a
  deletes : ∀ raw a, b.deletes.peek raw = some a → Derives raw a

variable {b : Buffer} (h : b.Derived)
include h

theorem Derived.deeds : ∀ deed ∈ b.deeds, deed.Derived := by
  intro deed hmem
  rcases List.mem_append.1 hmem with hput | hdelete
  · obtain ⟨⟨raw, a, value⟩, hentry, rfl⟩ := List.mem_map.1 hput
    exact h.puts raw a value (RecencyMap.peek_of_mem_toList hentry)
  · obtain ⟨⟨raw, a⟩, hentry, rfl⟩ := List.mem_map.1 hdelete
    exact h.deletes raw a (RecencyMap.peek_of_mem_toList hentry)

theorem Derived.reset : b.reset.Derived where
  scheme := h.scheme
  puts raw a value hpeek := by cases hpeek
  deletes raw a hpeek := by cases hpeek

theorem Derived.addPut {raw : Bytes} {a : Address} (value : Bytes) (hraw : Derives raw a) :
    (b.addPut value raw a).1.Derived where
  scheme := h.scheme
  puts key address new hpeek := by
    rcases RecencyMap.peek_insert hpeek with ⟨rfl, hnew⟩ | hold
    · cases hnew
      exact hraw
    · exact h.puts key address new hold
  deletes := h.deletes

theorem Derived.addDelete {raw : Bytes} {a : Address} (hraw : Derives raw a) :
    (b.addDelete raw a).1.Derived where
  scheme := h.scheme
  puts := h.puts
  deletes key address hpeek := by
    rcases RecencyMap.peek_insert hpeek with ⟨rfl, rfl⟩ | hold
    · exact hraw
    · exact h.deletes key address hold

theorem Derived.onFiled {bytes : Bytes} {act : Bytes → Address → Buffer × Except StoreError Unit}
    (hact : ∀ raw a, Derives raw a → (act raw a).1.Derived) :
    (onFiled b ((KeyForm.raw bytes).file b.scheme) act).1.Derived := by
  rw [h.scheme]
  cases hfile : (KeyForm.raw bytes).file .keccakBlockstore with
  | error e => exact h
  | ok found =>
    have hraw := KeyForm.deriveRaw_of_file ⟨bytes, rfl⟩ (congrArg Except.toOption hfile)
    exact hact found.1 found.2 hraw

omit h in
theorem Derived.create {capacity : Nat} (h : Buffer.create .keccakBlockstore capacity = .ok b) :
    b.Derived := by
  unfold Buffer.create RecencyMap.create at h
  split at h
  · cases h
  · cases h
    constructor
    · rfl
    · intro raw a value hpeek
      cases hpeek
    · intro raw a hpeek
      cases hpeek

end Buffer

namespace SharedTables

abbrev State := Session (Site Relational) Buffer

inductive Use
  /-- A call to one of the handles. -/
  | call (d : SqlDatabase) (call : Session.Call)
  /-- The tables come to be used at another site, with its own cache, clock, pace and faults. -/
  | move (site : Site Relational)

def Use.Untyped : Use → Prop
  | .call _ made => made.Untyped
  | .move _ => True

def step (s : State) : Use → State
  | .call d call => (s.step d.facade call).1
  | .move site =>
      { s with site := { site with
          backend := { site.backend with tables := s.site.backend.tables } } }

def deeds (s : State) : Use → List Deed
  | .call d call => s.deeds d.handle call
  | .move _ => []

def run (s : State) (uses : List Use) : State := uses.foldl step s

def log (s : State) (uses : List Use) : List Deed := ledger step deeds s uses

theorem log_concat (s : State) (uses : List Use) (use : Use) :
    log s (uses ++ [use]) = log s uses ++ deeds (run s uses) use :=
  ledger_concat step deeds s uses use

theorem run_concat (s : State) (uses : List Use) (use : Use) :
    run s (uses ++ [use]) = step (run s uses) use := List.foldl_append

/-- What holds at every moment of a history. -/
structure Kept (s : State) (log : List Deed) : Prop where
  record : s.site.backend.tables.Record log
  derived : ∀ deed ∈ log, deed.Derived
  batches : ∀ b ∈ s.batches, b.Derived

/-- Without a request the tables stay as they are. -/
theorem tables_of_quiet {s : Site Relational} {call : Session.Call} {s' : Site Relational}
    (h : Session.Quiet Relational.pace s call s') : s'.backend.tables = s.backend.tables := by
  cases h <;> rfl

/-- The deeds of a request are derived from raw keys. -/
theorem Kept.derived_of_request {s : State} {log : List Deed} (h : Kept s log) {d : SqlDatabase}
    {call : Session.Call} (huntyped : call.Untyped) {request : Request}
    (hrequest : Session.request? d.handle s.batches call = some request) :
    ∀ deed ∈ request.deeds, deed.Derived := by
  cases call with
  | put k value =>
    simp only [Session.request?, Option.map_eq_some_iff] at hrequest
    obtain ⟨found, hfile, rfl⟩ := hrequest
    intro deed hmem
    obtain rfl := List.mem_singleton.1 hmem
    exact KeyForm.deriveRaw_of_file huntyped hfile
  | delete k =>
    simp only [Session.request?, Option.map_eq_some_iff] at hrequest
    obtain ⟨found, hfile, rfl⟩ := hrequest
    intro deed hmem
    obtain rfl := List.mem_singleton.1 hmem
    exact KeyForm.deriveRaw_of_file huntyped hfile
  | batchWrite batch =>
    simp only [Session.request?, Option.map_eq_some_iff] at hrequest
    obtain ⟨b, hbatch, rfl⟩ := hrequest
    exact (h.batches b (List.mem_of_getElem? hbatch)).deeds
  | _ => cases hrequest

/-- A call enters in the log just what it does to the tables. -/
theorem Kept.call {s : State} {log : List Deed} (h : Kept s log) (d : SqlDatabase)
    {call : Session.Call} (huntyped : call.Untyped) :
    Kept (s.step d.facade call).1 (log ++ s.deeds d.handle call) := by
  have hbatches : ∀ b ∈ (s.step d.facade call).1.batches, b.Derived := by
    refine Session.forall_batches_step h.batches (fun b hnew => Buffer.Derived.create hnew)
      (fun b hb => hb.reset) ?_ ?_
    · rintro batch k value rfl b hb
      obtain ⟨bytes, rfl⟩ := huntyped
      exact hb.onFiled fun raw a => hb.addPut value
    · rintro batch k rfl b hb
      obtain ⟨bytes, rfl⟩ := huntyped
      exact hb.onFiled fun raw a => hb.addDelete
  cases hrequest : Session.request? d.handle s.batches call with
  | none =>
    have hquiet : Session.Quiet Relational.pace s.site call (s.step d.facade call).1.site :=
      Session.quiet_of_no_request hrequest
    have hrecord := h.record
    rw [← tables_of_quiet hquiet] at hrecord
    rw [Session.deeds_of_no_request hrequest, List.append_nil]
    exact ⟨hrecord, h.derived, hbatches⟩
  | some request =>
    have hstep : s.step d.facade call =
        ({ s with site := (s.site.make request).1 }, .did (s.site.make request).2) :=
      Session.step_of_request hrequest
    rw [hstep] at hbatches ⊢
    rcases Relational.make_cases s.site request with ⟨tables, hexec, hmake⟩ | ⟨e, hmake⟩
    · have hderived := h.derived_of_request huntyped hrequest
      have hok : (s.site.make request).2 = .ok () := by rw [hmake]
      rw [Session.deeds_of_ok hrequest hok, hmake]
      refine ⟨h.record.execAll hderived hexec, fun deed hmem => ?_, hbatches⟩
      rcases List.mem_append.1 hmem with hold | hnew
      · exact h.derived deed hold
      · exact hderived deed hnew
    · have herror : (s.site.make request).2 = .error e := by rw [hmake]
      rw [Session.deeds_of_error hrequest herror, List.append_nil, hmake]
      exact ⟨h.record, h.derived, hbatches⟩

theorem Kept.step {s : State} {log : List Deed} (h : Kept s log) {use : Use}
    (huntyped : use.Untyped) : Kept (step s use) (log ++ deeds s use) := by
  cases use with
  | call d call => exact h.call d huntyped
  | move site =>
    simp only [deeds, List.append_nil]
    exact ⟨h.record, h.derived, h.batches⟩

/-- Empty tables are kept through any history of untyped uses. -/
theorem kept_run (d : SqlDatabase) (now : Nat) {uses : List Use}
    (huntyped : ∀ use ∈ uses, use.Untyped) :
    Kept (run (d.session now) uses) (log (d.session now) uses) := by
  induction uses using List.reverseRecOn with
  | nil =>
    have hempty : (d.session now).site.backend.tables.Record [] := ⟨[], [], rfl, records_nil⟩
    exact ⟨hempty, fun deed hmem => absurd hmem List.not_mem_nil,
      fun b hmem => absurd hmem List.not_mem_nil⟩
  | append_singleton uses use ih =>
    rw [run_concat, log_concat]
    have hbefore := ih fun earlier hmem => huntyped earlier (List.mem_append_left _ hmem)
    exact hbefore.step (huntyped use (by simp))

section Deleted

variable {s : State} {log : List Deed} (h : Kept s log) {a : Address} (hdeleted : Deleted log a)
include h hdeleted

theorem Kept.not_mem_keys {key : Bytes} (hkey : Derives key a) : key ∉ s.site.backend.keys := by
  obtain ⟨rows, entries, htables, hrecords⟩ := h.record
  intro hmem
  simp only [Relational.keys, htables, List.mem_map] at hmem
  obtain ⟨⟨_, b⟩, hentry, rfl⟩ := hmem
  obtain rfl := ((hrecords.entries_iff _ b).1 hentry).1.unique hkey
  exact (hrecords.not_mem_of_deleted hdeleted).1 _ hentry

theorem Kept.answer_ne_ok (key value : Bytes) : Site.answer s.site.backend key a ≠ .ok value := by
  obtain ⟨rows, entries, htables, hrecords⟩ := h.record
  have hnone : Assoc.find? a rows = none :=
    Assoc.find?_eq_none_iff.2 (hrecords.not_mem_of_deleted hdeleted).2
  have hread : s.site.backend.tables.read a = .ok none := by
    rw [htables, ← hnone]
    rfl
  have hquery : Backend.read s.site.backend a = s.site.backend.query (·.read a) := rfl
  intro hanswer
  cases hopen : s.site.backend.isOpen with
  | true => simp [Site.answer, hquery, Relational.query, hopen, hread, Relational.lift] at hanswer
  | false => simp [Site.answer, hquery, Relational.query, hopen, Relational.fail] at hanswer

end Deleted

theorem Kept.count_eq_one {s : State} {log : List Deed} (h : Kept s log) {key : Bytes} {a : Address}
    (hkey : Derives key a) (hlive : Live log key a) : s.site.backend.keys.count key = 1 := by
  obtain ⟨rows, entries, htables, hrecords⟩ := h.record
  have hmem : (key, a) ∈ entries := (hrecords.entries_iff key a).2 ⟨hkey, hlive⟩
  simp only [Relational.keys, htables]
  exact List.count_eq_one_of_mem hrecords.keys (List.mem_map.2 ⟨_, hmem, rfl⟩)

/-- After a call that deletes under an address, no get at the same site returns a value there. -/
theorem Kept.unserved {s : State} {log : List Deed} (h : Kept s log) {d : SqlDatabase}
    {call : Session.Call} {a : Address} (huntyped : call.Untyped)
    (hremoves : ∃ deed ∈ s.deeds d.handle call, deed.Removes a) (e : SqlDatabase) {k : KeyForm}
    {raw : Bytes} (hfile : k.file e.handle.scheme = .ok (raw, a)) :
    ∃ error, ((s.step d.facade call).1.step e.facade (.get k)).2 = .got (.error error) := by
  have hkept := h.call d huntyped
  obtain ⟨deed, hdeed, hremoved⟩ := hremoves
  obtain ⟨request, hrequest, hok, hdeed⟩ := Session.request_of_deed hdeed
  have hstep : s.step d.facade call =
      ({ s with site := (s.site.make request).1 }, .did (s.site.make request).2) :=
    Session.step_of_request hrequest
  rcases Relational.make_cases s.site request with ⟨tables, _, hmake⟩ | ⟨e, hmake⟩
  · rw [Session.deeds_of_ok hrequest hok] at hkept
    have hforgotten : a ∈ request.forgotten := Request.mem_forgotten.2 ⟨deed, hdeed, hremoved⟩
    have hcache : (s.step d.facade call).1.site.cache.Forgotten a := by
      rw [hstep, hmake]
      exact s.site.cache.invalidateAll_forgotten hforgotten
    obtain ⟨error, herror⟩ :=
      Site.get_error hcache (hkept.answer_ne_ok (Request.deleted hforgotten log) raw)
    refine ⟨error, ?_⟩
    show Session.Reply.got ((e.handle.facade Relational.pace).get _ k).2 = _
    rw [e.handle.facade_get, hfile]
    exact congrArg Session.Reply.got herror
  · rw [hmake] at hok
    cases hok

/-- The books are kept at a state: what the tables and their readers have to do with what was
written. -/
structure Bookkeeping (s : State) (log : List Deed) : Prop where
  /-- Both tables have just the rows that the log says. -/
  record : s.site.backend.tables.Record log
  /-- Each deed in the log is filed under the address that its key derives to. -/
  derived : ∀ deed ∈ log, deed.Derived
  /-- A key that was put is listed once until it or an alias is deleted. -/
  single : ∀ key a, Derives key a → Live log key a → s.site.backend.keys.count key = 1
  /-- No alias of a deleted key is listed, in the index or on any page of it. -/
  unlisted : ∀ a, Deleted log a → ∀ key, Derives key a → key ∉ s.site.backend.keys ∧
    ∀ lower limit page, s.site.backend.scan lower limit = .ok page → key ∉ page
  /-- No alias of a deleted key is read. -/
  unreadable : ∀ a, Deleted log a → ∀ key value, Site.answer s.site.backend key a ≠ .ok value
  /-- Nor is it served from the cache of the site at which the delete was made. -/
  unserved : ∀ (d : SqlDatabase) call a, call.Untyped →
    (∃ deed ∈ s.deeds d.handle call, deed.Removes a) →
    ∀ (e : SqlDatabase) k raw, k.file e.handle.scheme = .ok (raw, a) →
      ∃ error, ((s.step d.facade call).1.step e.facade (.get k)).2 = .got (.error error)

/-- The books are kept through any history of untyped uses of a database that was empty. -/
theorem bookkeeping_run (d : SqlDatabase) (now : Nat) {uses : List Use}
    (huntyped : ∀ use ∈ uses, use.Untyped) :
    Bookkeeping (run (d.session now) uses) (log (d.session now) uses) := by
  have hkept := kept_run d now huntyped
  refine ⟨hkept.record, hkept.derived, fun key a => hkept.count_eq_one, ?_, ?_, ?_⟩
  · intro a hdeleted key hkey
    have hunlisted := hkept.not_mem_keys hdeleted hkey
    refine ⟨hunlisted, fun lower limit page hscan hmem => hunlisted ?_⟩
    obtain ⟨rows, entries, htables, hrecords⟩ := hkept.record
    exact Relational.mem_keys_of_scan ⟨entries, by rw [htables], hrecords.keys⟩ hscan key hmem
  · exact fun a hdeleted => hkept.answer_ne_ok hdeleted
  · exact fun d call a hcall hremoves e k raw => hkept.unserved hcall hremoves e

namespace Aliases

def tables : SqlDatabase := ⟨{}⟩

def digest : Bytes := List.replicate 32 7

def preimage : Bytes := preimageTag ++ partMark ++ digest

def puts : List Use :=
  [.call tables (.put (.raw digest) [1]), .call tables (.put (.raw preimage) [2])]

def uses : List Use := puts ++ [.call tables (.delete (.raw digest))]

theorem untyped : ∀ use ∈ uses, use.Untyped := by
  intro use hmem
  simp only [uses, puts, List.mem_append, List.mem_cons, List.not_mem_nil, or_false] at hmem
  rcases hmem with (rfl | rfl) | rfl
  · exact ⟨digest, rfl⟩
  · exact ⟨preimage, rfl⟩
  · exact ⟨digest, rfl⟩

/-- Two aliases are listed, and neither any more when one of them was deleted. -/
theorem bookkeeping_aliases :
    (∀ use ∈ uses, use.Untyped) ∧
      (run (tables.session 0) puts).site.backend.keys = [digest, preimage] ∧
      (run (tables.session 0) uses).site.backend.keys = [] ∧
      Bookkeeping (run (tables.session 0) uses) (log (tables.session 0) uses) :=
  ⟨untyped, rfl, rfl, bookkeeping_run tables 0 untyped⟩

end Aliases

end SharedTables

end KeyedBlocks
