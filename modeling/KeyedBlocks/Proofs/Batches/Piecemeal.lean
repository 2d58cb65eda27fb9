import KeyedBlocks.Proofs.Batches.Contents
import KeyedBlocks.Proofs.Blocks.Flush
import KeyedBlocks.Proofs.Relational.Records

/-!
Batches made piece by piece. The deeds of a batch can be made as so many single puts and deletes, in
order, puts before deletes. If the batch can be written as a whole, so can its deeds one after the
other, and they come to the same: to the same site for relational tables, and for a block service to
one that differs at most in the count of calls.
-/
namespace KeyedBlocks

namespace Deed

/-- The request that makes a deed by itself. -/
def request : Deed → Request
  | .put raw a value => .put raw a value
  | .delete raw a => .delete raw a

theorem deeds_request (deed : Deed) : deed.request.deeds = [deed] := by
  cases deed <;> rfl

def puts (entries : List (Bytes × Address × Bytes)) : List Deed :=
  entries.map fun entry => .put entry.1 entry.2.1 entry.2.2

def deletes (entries : List (Bytes × Address)) : List Deed :=
  entries.map fun entry => .delete entry.1 entry.2

/-- Puts and then deletes. -/
def inOrder (entries : List (Bytes × Address × Bytes)) (removed : List (Bytes × Address)) :
    List Deed :=
  puts entries ++ deletes removed

end Deed

theorem deletesOf_deeds (b : Buffer) : deletesOf b.deeds = b.deleteList := by
  simp [deletesOf, Buffer.deeds, List.filterMap_append, List.filterMap_map, Function.comp_def,
    Deed.pendingDelete?]

section Site

variable {β ω : Type} [Backend β ω]

/-- Make deeds one after the other, until one fails. -/
def Site.makeEach (s : Site β) (deeds : List Deed) : Site β × Except StoreError Unit :=
  runSteps (fun s deed => s.make deed.request) s deeds

/-- Make deeds one after the other, whether they fail or not. -/
def Site.makeAll (s : Site β) (deeds : List Deed) : Site β :=
  deeds.foldl (fun s deed => (s.make deed.request).1) s

variable {s t : Site β} {deed : Deed} {deeds rest : List Deed}

theorem Site.makeEach_cons (h : s.make deed.request = (t, .ok ())) (rest : List Deed) :
    s.makeEach (deed :: rest) = t.makeEach rest := by
  unfold makeEach
  rw [runSteps, h]

theorem Site.makeEach_append (h : s.makeEach deeds = (t, .ok ())) (rest : List Deed) :
    s.makeEach (deeds ++ rest) = t.makeEach rest :=
  runSteps_append_ok h rest

theorem Site.makeAll_of_makeEach (h : s.makeEach deeds = (t, .ok ())) : s.makeAll deeds = t := by
  induction deeds generalizing s with
  | nil => exact congrArg Prod.fst h
  | cons deed rest ih =>
    obtain ⟨next, hmake, hrest⟩ := runSteps_cons_eq_ok_iff.1 h
    rw [makeAll, List.foldl_cons, hmake]
    exact ih hrest

end Site

namespace Relational

variable {s t : Site Relational} {b : Buffer}

/-- A database that has carried out statements is open to writes. -/
theorem writable_of_transaction {d : Relational} {statements : List Statement}
    (hsome : statements ≠ []) (hok : (d.transaction statements).2 = .ok ()) :
    d.isOpen = true ∧ d.readOnly = false := by
  obtain ⟨hopen, _⟩ := execAll_of_transaction hsome hok
  refine ⟨hopen, ?_⟩
  cases hreadOnly : d.readOnly with
  | false => rfl
  | true =>
    obtain ⟨first, rest, rfl⟩ := List.exists_cons_of_ne_nil hsome
    simp only [Relational.transaction, hopen, hreadOnly, Tables.refuse] at hok
    cases hfirst : d.tables.exec {} first with
    | error fault =>
      rw [hfirst] at hok
      cases hok
    | ok next =>
      rw [hfirst] at hok
      cases hok

/-- Where the statements of a request can be carried out, the request is made. -/
theorem make_of_execAll (hopen : s.backend.isOpen = true) (hwritable : s.backend.readOnly = false)
    {request : Request} {tables : Tables}
    (hexec : s.backend.tables.execAll s.backend.guards (request.deeds.flatMap Deed.statements) =
      .ok tables) :
    s.make request =
      (⟨{ s.backend with tables }, s.cache.invalidateAll request.forgotten, s.now⟩, .ok ()) := by
  unfold Site.make
  rcases plan_cases request with hplan | ⟨hplan, hdeeds, hforgotten⟩
  · have htransaction : Backend.perform s.backend (request.deeds.flatMap Deed.statements) =
        ({ s.backend with tables }, .ok ()) := by
      show s.backend.transaction _ = _
      simp only [Relational.transaction, hopen, hwritable, hexec]
      rfl
    rw [hplan]
    simp only [Site.run, runSteps, Site.step, htransaction]
    exact Site.run_forgets ⟨{ s.backend with tables }, s.cache, s.now⟩ request.forgotten
  · rw [hdeeds] at hexec
    cases hexec
    rw [hplan, hforgotten]
    rfl

/-- Statements that can be carried out as one transaction can be so deed by deed. -/
theorem makeEach_of_execAll (hopen : s.backend.isOpen = true)
    (hwritable : s.backend.readOnly = false) {deeds : List Deed} {tables : Tables}
    (hexec : s.backend.tables.execAll s.backend.guards (deeds.flatMap Deed.statements) =
      .ok tables) :
    s.makeEach deeds =
      (⟨{ s.backend with tables }, s.cache.invalidateAll ((deletesOf deeds).map Prod.snd), s.now⟩,
        .ok ()) := by
  induction deeds generalizing s with
  | nil =>
    cases hexec
    rfl
  | cons deed rest ih =>
    rw [List.flatMap_cons] at hexec
    obtain ⟨next, hfirst, hrest⟩ := Tables.execAll_append.1 hexec
    have hmake : s.make deed.request = (⟨{ s.backend with tables := next },
        s.cache.invalidateAll deed.request.forgotten, s.now⟩, .ok ()) := by
      apply make_of_execAll hopen hwritable
      rw [deed.deeds_request, List.flatMap_singleton]
      exact hfirst
    have hall := ih (s := ⟨{ s.backend with tables := next },
      s.cache.invalidateAll deed.request.forgotten, s.now⟩) hopen hwritable hrest
    rw [Site.makeEach_cons hmake, hall]
    cases deed <;> rfl

/-- Where a request with something to do was made, the database is open to writes. -/
theorem writable_of_make {request : Request} (hsome : request.deeds ≠ [])
    (hmake : s.make request = (t, .ok ())) :
    s.backend.isOpen = true ∧ s.backend.readOnly = false := by
  rcases plan_cases request with hplan | ⟨_, hnone, _⟩
  · unfold Site.make at hmake
    rw [hplan] at hmake
    obtain ⟨mid, hperform, _⟩ := runSteps_cons_eq_ok_iff.1 hmake
    have hok : (s.backend.transaction (request.deeds.flatMap Deed.statements)).2 = .ok () :=
      congrArg Prod.snd hperform
    apply writable_of_transaction _ hok
    obtain ⟨deed, rest, hdeeds⟩ := List.exists_cons_of_ne_nil hsome
    rw [hdeeds]
    cases deed <;> exact List.cons_ne_nil _ _
  · exact absurd hnone hsome

/-- A batch that is written can be written deed by deed, with the same outcome. -/
theorem makeEach_of_flush (h : s.flush b = (t, .ok ())) : s.makeEach b.deeds = (t, .ok ()) := by
  have hflush : s.make (.flush b) = (t, .ok ()) := h
  rcases make_cases s (.flush b) with ⟨tables, hexec, hmake⟩ | ⟨e, hmake⟩
  · have hexec : s.backend.tables.execAll s.backend.guards (b.deeds.flatMap Deed.statements) =
        .ok tables := hexec
    have hforgotten : (Request.flush b).forgotten = (deletesOf b.deeds).map Prod.snd := by
      rw [deletesOf_deeds]
      rfl
    rw [← hflush, hmake, hforgotten]
    cases hdeeds : b.deeds with
    | nil =>
      rw [hdeeds] at hexec
      cases hexec
      rfl
    | cons deed rest =>
      have hsome : (Request.flush b).deeds ≠ [] := by
        show b.deeds ≠ []
        rw [hdeeds]
        exact List.cons_ne_nil _ _
      obtain ⟨hopen, hwritable⟩ := writable_of_make hsome hflush
      rw [← hdeeds]
      exact makeEach_of_execAll hopen hwritable hexec
  · cases hflush.symm.trans hmake

end Relational

namespace BlockService

def recount (s : Site BlockService) (calls : CallCounts) : Site BlockService :=
  { s with backend := { s.backend with store := { s.backend.store with calls } } }

def Recounted (s t : Site BlockService) : Prop := ∃ calls, t = recount s calls

variable {s t : Site BlockService} {b : Buffer}

theorem make_put {a : Address} (h : s.backend.store.faults.check a = .ok ()) (raw value : Bytes) :
    ∃ calls, s.make (.put raw a value) = (site s [(a, value)] [] calls, .ok ()) := by
  obtain ⟨calls, hstore⟩ := BlockStore.store_of_ok h value
  have hperform : Backend.perform s.backend (.store a value) =
      ({ s.backend with store := { s.backend.store with
          blocks := Assoc.insert a value s.backend.store.blocks, calls } }, .ok ()) := by
    show s.backend.perform (.store a value) = _
    simp only [perform, hstore]
  refine ⟨calls, ?_⟩
  show s.run [.perform (.store a value)] = _
  simp only [Site.run, runSteps, Site.step, hperform]
  rfl

theorem makeEach_puts {puts : List (Bytes × Address × Bytes)}
    (h : s.backend.store.faults.Clean ((puts.map Prod.snd).map Prod.fst)) :
    ∃ calls, s.makeEach (Deed.puts puts) =
      (site s (puts.map Prod.snd) [] calls, .ok ()) := by
  induction puts generalizing s with
  | nil => exact ⟨s.backend.store.calls, rfl⟩
  | cons entry rest ih =>
    obtain ⟨hfirst, hrest⟩ := h.of_cons
    obtain ⟨counted, hput⟩ := make_put hfirst entry.1 entry.2.2
    obtain ⟨calls, hall⟩ := ih (s := site s [entry.2] [] counted) hrest
    exact ⟨calls, (Site.makeEach_cons hput _).trans hall⟩

theorem makeEach_deletes {deletes : List (Bytes × Address)}
    (h : s.backend.store.faults.Clean (deletes.map Prod.snd)) :
    ∃ calls, s.makeEach (Deed.deletes deletes) =
      (site s [] (deletes.map Prod.snd) calls, .ok ()) := by
  induction deletes generalizing s with
  | nil => exact ⟨s.backend.store.calls, rfl⟩
  | cons entry rest ih =>
    obtain ⟨hfirst, hrest⟩ := h.of_cons
    obtain ⟨counted, hremove⟩ := step_remove hfirst
    have hdelete : s.make (Deed.delete entry.1 entry.2).request =
        (site s [] [entry.2] counted, .ok ()) := hremove
    obtain ⟨calls, hall⟩ := ih (s := site s [] [entry.2] counted) hrest
    exact ⟨calls, (Site.makeEach_cons hdelete _).trans hall⟩

/-- A batch that is written can be written deed by deed, with the same outcome but for the count of
calls. -/
theorem makeEach_of_flush (h : s.flush b = (t, .ok ())) :
    ∃ calls, s.makeEach b.deeds = (recount t calls, .ok ()) := by
  obtain ⟨puts, deletes, result, counted, hends, hflush⟩ := flush_ends s b
  rw [h] at hflush
  obtain ⟨rfl, rfl⟩ := Prod.mk.inj hflush
  cases hends with
  | done hputs hdeletes =>
    obtain ⟨stored, hstored⟩ := makeEach_puts hputs
    obtain ⟨calls, hremoved⟩ :=
      makeEach_deletes (s := site s (b.putList.map Prod.snd) [] stored) hdeletes
    exact ⟨calls, (Site.makeEach_append hstored _).trans hremoved⟩

end BlockService

end KeyedBlocks
