import KeyedBlocks.Proofs.Cache.Forgetting
import KeyedBlocks.Proofs.Relational.Transaction

/-!
A write to relational tables happens as a whole or not at all. Wherever its transaction fails, be it
at a statement or at the commit, the caller gets the fault, and the tables, the cache and the open
batches are as they were. If it does not fail, the tables have all deeds of the write, puts before
deletes, and the cache has forgotten what was deleted.
-/
namespace KeyedBlocks

def PreimageTable.modify (change : List (Bytes × Address) → List (Bytes × Address)) :
    PreimageTable → PreimageTable
  | .rows entries => .rows (change entries)
  | other => other

namespace Tables

/-- The tables when a deed is done: a put files its value under its address and the address under
its key, and a delete takes away the block and all keys that lead to it. -/
def afterDeed (t : Tables) : Deed → Tables
  | .put raw a value =>
      { blocks := t.blocks.map (Assoc.insert a value)
        preimages := t.preimages.modify (Assoc.insert raw a) }
  | .delete raw a =>
      { blocks := t.blocks.map (Assoc.erase a)
        preimages := t.preimages.modify fun entries =>
          (Assoc.erase raw entries).filter fun row => row.2 ≠ a }

def afterDeeds (t : Tables) (deeds : List Deed) : Tables := deeds.foldl afterDeed t

variable {guards : Guards} {t t' : Tables}

theorem preimageRows_ok {foreign : Fault} {entries : List (Bytes × Address)}
    (h : t.preimageRows foreign = .ok entries) : t.preimages = .rows entries := by
  unfold preimageRows at h
  split at h
  · rename_i hrows
    cases h
    exact hrows
  · cases h
  · cases h

theorem exec_upsertPreimage {key : Bytes} {a : Address}
    (h : exec guards t (.upsertPreimage key a) = .ok t') :
    t' = { t with preimages := t.preimages.modify (Assoc.insert key a) } := by
  cases hrows : t.preimageRows noColumnNamed with
  | error fault =>
    simp only [exec, hrows] at h
    cases h
  | ok entries =>
    simp only [exec, hrows] at h
    cases h
    rw [preimageRows_ok hrows]
    rfl

theorem exec_deletePreimage {key : Bytes}
    (h : exec guards t (.deletePreimage key) = .ok t') :
    t' = { t with preimages := t.preimages.modify (Assoc.erase key) } := by
  cases hrows : t.preimageRows noSuchColumn with
  | error fault =>
    simp only [exec, hrows] at h
    cases h
  | ok entries =>
    simp only [exec, hrows] at h
    cases h
    rw [preimageRows_ok hrows]
    rfl

theorem exec_deletePreimagesOf {a : Address}
    (h : exec guards t (.deletePreimagesOf a) = .ok t') :
    t' = { t with preimages := t.preimages.modify (List.filter fun row => row.2 ≠ a) } := by
  simp only [exec] at h
  split at h
  · rename_i entries hrows
    cases h
    rw [hrows]
    rfl
  · rename_i hforeign
    cases h
    obtain ⟨blocks, preimages⟩ := t
    cases hforeign
    rfl
  · cases h

/-- The statements of a deed, if they can be carried out, do the deed. -/
theorem execAll_deed {deed : Deed} (h : t.execAll guards deed.statements = .ok t') :
    t' = t.afterDeed deed := by
  cases deed with
  | put raw a value =>
    obtain ⟨upserted, hblock, hrest⟩ := execAll_cons.1 h
    obtain ⟨rows, hblocks, rfl⟩ := exec_upsertBlock hblock
    obtain ⟨left, hpreimage, hnil⟩ := execAll_cons.1 hrest
    cases hnil
    rw [exec_upsertPreimage hpreimage, afterDeed, hblocks]
    rfl
  | delete raw a =>
    obtain ⟨unkeyed, hkey, hrest⟩ := execAll_cons.1 h
    obtain ⟨unnamed, haliases, hrest⟩ := execAll_cons.1 hrest
    obtain ⟨left, hblock, hnil⟩ := execAll_cons.1 hrest
    cases hnil
    obtain rfl := exec_deletePreimage hkey
    obtain rfl := exec_deletePreimagesOf haliases
    obtain ⟨rows, hblocks, rfl⟩ := exec_deleteBlock hblock
    have hrows : t.blocks = some rows := hblocks
    rw [afterDeed, hrows]
    cases t.preimages <;> rfl

theorem execAll_deeds {deeds : List Deed}
    (h : t.execAll guards (deeds.flatMap Deed.statements) = .ok t') : t' = t.afterDeeds deeds := by
  induction deeds generalizing t with
  | nil =>
    cases h
    rfl
  | cons deed rest ih =>
    rw [List.flatMap_cons] at h
    obtain ⟨next, hfirst, hrest⟩ := execAll_append.1 h
    rw [execAll_deed hfirst] at hrest
    exact ih hrest

end Tables

namespace Unreliable

def Fails (u : Unreliable) (request : Request) (i : Nat) (fault : Fault) : Prop :=
  ∃ statements, .perform statements ∈ request.plan Unreliable ∧ u.FailsAt statements i fault

variable {s : Site Unreliable} {request : Request} {i : Nat} {fault : Fault}

theorem plan_cases (request : Request) :
    request.plan Unreliable =
        .perform (request.deeds.flatMap Deed.statements) :: request.forgotten.map .forget ∨
      (request.plan Unreliable = [] ∧ request.deeds = [] ∧ request.forgotten = []) := by
  have hplan : request.plan Unreliable = request.plan Relational := by cases request <;> rfl
  rw [hplan]
  exact Relational.plan_cases request

/-- A request whose transaction fails changes nothing at its site. -/
theorem make_of_fails (h : s.backend.Fails request i fault) :
    s.make request = (s, Relational.fail fault) := by
  obtain ⟨statements, hmem, hfails⟩ := h
  rcases plan_cases request with hplan | ⟨hplan, _, _⟩
  · rw [hplan] at hmem
    have hstatements : statements = request.deeds.flatMap Deed.statements := by simpa using hmem
    have hperform : Backend.perform s.backend (request.deeds.flatMap Deed.statements) =
        (s.backend, Relational.fail fault) := hstatements ▸ hfails.transaction
    have hstep : s.step (.perform (request.deeds.flatMap Deed.statements)) =
        (s, Relational.fail fault) := by
      simp only [Site.step, hperform]
    unfold Site.make Site.run
    rw [hplan]
    exact runSteps_cons_error hstep _
  · rw [hplan] at hmem
    exact absurd hmem List.not_mem_nil

/-- A request whose transaction does not fail does all its deeds. -/
theorem make_of_not_fails (h : ∀ i fault, ¬ s.backend.Fails request i fault) :
    s.make request =
      (⟨{ s.backend with database := { s.backend.database with
            tables := s.backend.database.tables.afterDeeds request.deeds } },
          s.cache.invalidateAll request.forgotten, s.now⟩, .ok ()) := by
  unfold Site.make Site.run
  rcases plan_cases request with hplan | ⟨hplan, hdeeds, hforgotten⟩
  · have hmem : Effect.perform (request.deeds.flatMap Deed.statements) ∈
        request.plan Unreliable := by
      rw [hplan]
      exact List.mem_cons_self ..
    obtain ⟨tables, hexec, hdone⟩ := transaction_done fun i fault hfails =>
      h i fault ⟨_, hmem, hfails⟩
    have hperform : Backend.perform s.backend (request.deeds.flatMap Deed.statements) = _ := hdone
    obtain rfl := Tables.execAll_deeds hexec
    rw [hplan]
    refine (runSteps_cons_ok ?_ _).trans (Site.run_forgets ⟨_, s.cache, s.now⟩ request.forgotten)
    simp only [Site.step, hperform]
  · rw [hplan, hdeeds, hforgotten]
    rfl

end Unreliable

/-- What becomes of a call that makes a request of relational tables. -/
structure AllOrNothing (h : Handle) (s : Session (Site Unreliable) Buffer) (call : Session.Call)
    (request : Request) : Prop where
  /-- Where its transaction fails, the call replies with the fault and leaves everything as it was:
  the tables, the entries and registered fetches of the cache, and the open batches. -/
  failed : ∀ i fault, s.site.backend.Fails request i fault →
    s.step (h.facade Unreliable.pace) call = (s, .did (Relational.fail fault))
  /-- The transaction fails wherever the connection breaks down: when it begins, at a statement or
  at the commit, unless it has failed before. -/
  broken : ∀ statements, .perform statements ∈ request.plan Unreliable →
    ∀ i < (Stage.all statements).length, ∀ fault, s.site.backend.breakdown i = some fault →
      ∃ j ≤ i, ∃ first, s.site.backend.Fails request j first
  /-- If it does not fail, the call succeeds, and the tables have all puts and then all deletes. -/
  done : (∀ i fault, ¬ s.site.backend.Fails request i fault) →
    ∃ cache, s.step (h.facade Unreliable.pace) call =
        ({ s with site := ⟨{ s.site.backend with database := { s.site.backend.database with
            tables := s.site.backend.database.tables.afterDeeds request.deeds } },
          cache, s.site.now⟩ }, .did (.ok ())) ∧
      s.site.cache.Forgot cache request.forgotten

/-- A write to relational tables is made as a whole or not at all. -/
theorem allOrNothing {h : Handle} {s : Session (Site Unreliable) Buffer} {call : Session.Call}
    {request : Request} (hrequest : Session.request? h s.batches call = some request) :
    AllOrNothing h s call request := by
  have hstep : s.step (h.facade Unreliable.pace) call =
      ({ s with site := (s.site.make request).1 }, .did (s.site.make request).2) :=
    Session.step_of_request hrequest
  refine ⟨?_, ?_, ?_⟩
  · intro i fault hfails
    rw [hstep, Unreliable.make_of_fails hfails]
  · intro statements hmem i hplace fault hbreak
    by_cases hearlier : ∃ j < i, ∃ other, s.site.backend.FailsAt statements j other
    · obtain ⟨j, hj, other, hfails⟩ := hearlier
      exact ⟨j, Nat.le_of_lt hj, other, statements, hmem, hfails⟩
    · have hfirst : ∀ j < i, ∀ other, ¬ s.site.backend.FailsAt statements j other :=
        fun j hj other hfails => hearlier ⟨j, hj, other, hfails⟩
      exact ⟨i, Nat.le_refl i, fault, statements, hmem,
        Unreliable.failsAt_of_breakdown hbreak hplace hfirst⟩
  · intro hnone
    refine ⟨s.site.cache.invalidateAll request.forgotten, ?_,
      s.site.cache.invalidateAll_forgot request.forgotten⟩
    rw [hstep, Unreliable.make_of_not_fails hnone]

namespace Interrupted

def tables : SqlDatabase := ⟨{}⟩

def digest : Bytes := List.replicate 32 7

/-- The connection breaks down at the commit, which comes after seven statements. -/
def breakdown (place : Nat) : Option Fault := if place = 8 then some .closedPool else none

def session : Session (Site Unreliable) Buffer :=
  Session.run (tables.handle.facade Unreliable.pace)
    ⟨⟨⟨.fresh 1, breakdown⟩, .create {}, 0⟩, []⟩
    [.newBatch, .batchPut 0 (.raw digest) [1],
      .batchPut 0 (.raw (preimageTag ++ partMark ++ digest)) [2],
      .batchDelete 0 (.raw digest)]

/-- The commit fails, though all statements were carried out. -/
theorem allOrNothing_interrupted :
    ∃ b, Session.request? tables.handle session.batches (.batchWrite 0) = some (.flush b) ∧
      b.deeds.length = 3 ∧ AllOrNothing tables.handle session (.batchWrite 0) (.flush b) ∧
      (session.step (tables.handle.facade Unreliable.pace) (.batchWrite 0)).2 =
        .did (Relational.fail .closedPool) :=
  ⟨_, rfl, rfl, allOrNothing rfl, rfl⟩

end Interrupted

end KeyedBlocks
