import KeyedBlocks.Proofs.Shared.Readings
import KeyedBlocks.Proofs.Shared.Removal

/-!
Deletes at a site in concurrent use. Once a delete has returned, no get that begins afterwards
returns a value that was read before the block was removed, whatever fetches were on their way
meanwhile: between the removal and the return of the write the cache forgets the address, and what
was fetched before that cannot come back into it.
-/
namespace KeyedBlocks

namespace SharedSite

variable {β ω : Type} [Backend β ω]

/-- A write is about to make a change that removes the block under an address and will not fail. -/
def RemovesNow (removes : ω → Address → Prop) (s : SharedSite β ω) (i : Nat) (a : Address) : Prop :=
  ∃ change rest, removes change a ∧ s.Makes i (.perform change) rest

/-- Before a write makes another change, it has the cache forget an address. -/
def WillForget (s : SharedSite β ω) (i : Nat) (a : Address) : Prop :=
  ∃ (request : Request) (others : List Address) (rest : List (Effect ω)),
    s.writings[i]? = some ⟨request, .pending (others.map .forget ++ .forget a :: rest)⟩

/-- A write that is to have the cache forget an address is still to do so, has just done so, or was
dropped. -/
theorem willForget_step {s : SharedSite β ω} {i : Nat} {a : Address} (x : Access)
    (h : s.WillForget i a) :
    (s.step x).WillForget i a ∨ (s.step x).traffic.cache.Forgotten a ∨
      ∃ request, (s.step x).writings[i]? = some ⟨request, .dropped⟩ := by
  obtain ⟨request, others, rest, hwrite⟩ := h
  obtain ⟨next, hnext, hadvance⟩ := advance_step x hwrite
  cases others with
  | nil =>
    cases hadvance with
    | same => exact Or.inl ⟨request, [], rest, hnext⟩
    | forget _ htraffic =>
      right
      left
      rw [htraffic]
      exact ReadCache.invalidate_forgotten _ a
    | drop => exact Or.inr (Or.inr ⟨request, hnext⟩)
  | cons other others =>
    cases hadvance with
    | same => exact Or.inl ⟨request, other :: others, rest, hnext⟩
    | forget => exact Or.inl ⟨request, others, rest, hnext⟩
    | drop => exact Or.inr (Or.inr ⟨request, hnext⟩)

theorem dropped_run {s : SharedSite β ω} {i : Nat} {request : Request} (accesses : List Access)
    (h : s.writings[i]? = some ⟨request, .dropped⟩) :
    (s.run accesses).writings[i]? = some ⟨request, .dropped⟩ := by
  induction accesses generalizing s with
  | nil => exact h
  | cons x rest ih =>
    obtain ⟨next, hnext, hadvance⟩ := advance_step x h
    cases hadvance
    exact ih hnext

/-- A write that is to have the cache forget an address does so before it returns. -/
theorem forgotten_run {s : SharedSite β ω} {accesses : List Access} {i : Nat} {a : Address}
    {request : Request} {result : Except StoreError Unit} (h : s.WillForget i a)
    (hended : (s.run accesses).writings[i]? = some ⟨request, .ended result⟩) :
    ∃ early late, accesses = early ++ late ∧ (s.run early).traffic.cache.Forgotten a := by
  induction accesses generalizing s with
  | nil =>
    obtain ⟨_, _, _, hwrite⟩ := h
    cases hwrite.symm.trans hended
  | cons x rest ih =>
    rcases willForget_step x h with hstill | hforgotten | ⟨other, hdropped⟩
    · obtain ⟨early, late, rfl, hforgotten⟩ := ih hstill hended
      exact ⟨x :: early, late, rfl, hforgotten⟩
    · exact ⟨[x], rest, rfl, hforgotten⟩
    · cases (dropped_run rest hdropped).symm.trans hended

theorem call?_eq_none_of_run {s : SharedSite β ω} {accesses : List Access} {id : CallId}
    (h : (s.run accesses).traffic.call? id = none) : s.traffic.call? id = none := by
  rw [run_traffic] at h
  exact Traffic.call?_eq_none_of_run h

/-- What a write has still to do is the end of its plan. -/
theorem plan_of_pending {backend : β} {config : CacheConfig} {now : Nat} {accesses : List Access}
    {i : Nat} {request : Request} {left : List (Effect ω)}
    (h : ((start backend config now).run accesses).writings[i]? = some ⟨request, .pending left⟩) :
    ∃ done, request.plan β = done ++ left := by
  obtain ⟨done, hdone⟩ := (behind_run rfl h rfl).suffix
  exact ⟨done, hdone.symm⟩

theorem willForget_of_removesNow {removes : ω → Address → Prop} (horderly : Orderly β removes)
    {backend : β} {config : CacheConfig} {now : Nat} {accesses : List Access} {i : Nat}
    {a : Address} (h : ((start backend config now).run accesses).RemovesNow removes i a) :
    (((start backend config now).run accesses).step (.proceed i)).WillForget i a := by
  obtain ⟨change, left, hremoves, request, hwrite, hok⟩ := h
  obtain ⟨done, hplan⟩ := plan_of_pending hwrite
  obtain ⟨others, rest, rfl⟩ := horderly.forgotten request a done change left hplan hremoves
  have hnext := proceed_perform hwrite
  rw [hok change rfl] at hnext
  exact ⟨request, others, rest, hnext⟩

end SharedSite

/-- Deletes at a kind of backend, with `removes` telling which changes remove a block, in every run
of a site that begins with a new cache. -/
structure DeleteCoherence (β : Type) {ω : Type} [Backend β ω] (removes : ω → Address → Prop) :
    Prop where
  /-- A change that removes a block, and does not fail, leaves none behind. -/
  gone : ∀ (backend : β) change a, removes change a →
    (Backend.perform backend change).2 = .ok () →
    Backend.read (Backend.perform backend change).1 a = .ok none
  /-- A delete that has returned with success, or a batch with such a delete in it, has removed the
  block at one of its steps. -/
  removed : ∀ (backend : β) config now accesses i request result a,
    ((SharedSite.start backend config now).run accesses).writings[i]? =
      some ⟨request, .ended (.ok result)⟩ →
    request.Removes a →
    ∃ early late, accesses = early ++ .proceed i :: late ∧
      ((SharedSite.start backend config now).run early).RemovesNow removes i a
  /-- After the return of a write that has removed a block, with success or with the error of a
  later step, a get that begins returns a value only if it was read after the removal. -/
  fresh : ∀ (backend : β) config now early late after i request result a id value,
    ((SharedSite.start backend config now).run early).RemovesNow removes i a →
    ((SharedSite.start backend config now).run (early ++ .proceed i :: late)).writings[i]? =
      some ⟨request, .ended result⟩ →
    ((SharedSite.start backend config now).run (early ++ .proceed i :: late)).traffic.call? id =
      none →
    ((SharedSite.start backend config now).run
      (early ++ .proceed i :: (late ++ after))).traffic.call? id =
        some ⟨a, .returned (.ok value)⟩ →
    ∃ between leader rest, late ++ after = between ++ .read leader :: rest ∧
      ((SharedSite.start backend config now).run
        (early ++ .proceed i :: between)).traffic.LeadsFor leader a ∧
      Backend.read ((SharedSite.start backend config now).run
        (early ++ .proceed i :: between)).backend a = .ok (some value)

theorem Orderly.coherent {β ω : Type} [Backend β ω] {removes : ω → Address → Prop}
    (h : Orderly β removes) : DeleteCoherence β removes where
  gone := h.gone
  removed backend config now accesses i request result a hended hrequest := by
    obtain ⟨before, change, after, hplan, hremoves⟩ := h.planned request a hrequest
    have hbehind := SharedSite.behind_run rfl hended rfl
    obtain ⟨early, late, rfl, hmakes⟩ :=
      hbehind.made before (.perform change) after hplan (Nat.zero_le _)
    exact ⟨early, late, rfl, change, after, hremoves, hmakes⟩
  fresh backend config now early late after i request result a id value hremoves hended hnew
      hreturned := by
    have hwill := SharedSite.willForget_of_removesNow h hremoves
    rw [SharedSite.run_append, SharedSite.run_cons] at hended
    obtain ⟨first, second, rfl, hforgotten⟩ := SharedSite.forgotten_run hwill hended
    -- The get begins after the address was forgotten, for it begins after the write has returned.
    have hsplit : early ++ .proceed i :: (first ++ second) =
        (early ++ .proceed i :: first) ++ second := by simp
    rw [hsplit, SharedSite.run_append] at hnew
    have hunbegun := SharedSite.call?_eq_none_of_run hnew
    have hlater : early ++ .proceed i :: (first ++ second ++ after) =
        (early ++ .proceed i :: first) ++ (second ++ after) := by simp
    rw [hlater, SharedSite.run_append] at hreturned
    rw [← SharedSite.run_cons, ← SharedSite.run_append] at hforgotten
    obtain ⟨between, leader, rest, hread, hleads, hfound⟩ :=
      SharedSite.read_of_returned hforgotten hunbegun hreturned
    have hbetween : early ++ .proceed i :: (first ++ between) =
        (early ++ .proceed i :: first) ++ between := by simp
    refine ⟨first ++ between, leader, rest, by simp [hread], ?_, ?_⟩
    · rwa [hbetween, SharedSite.run_append]
    · rwa [hbetween, SharedSite.run_append]

/-- Deletes are coherent at both kinds of backend. -/
theorem deleteCoherence :
    DeleteCoherence BlockService BlockWrite.Removes ∧
      DeleteCoherence Relational Statement.Remove :=
  ⟨BlockService.orderly.coherent, Relational.orderly.coherent⟩

end KeyedBlocks
