import KeyedBlocks.Proofs.Shared.Site
import KeyedBlocks.Proofs.Traffic.Turns

/-!
What the users of a shared site do to its cache. An access makes at most one move in the traffic of
the cache, so every run of a shared site is a run of that traffic, and all that is known of such
runs holds at a shared site as well.
-/
namespace KeyedBlocks.SharedSite

variable {β ω : Type} [Backend β ω]

def move? (s : SharedSite β ω) : Access → Option (Move Address StoreError)
  | .get h key => (h.scheme.derive key).toOption.map .get
  | .reply call =>
      match s.readings[call]? with
      | some ⟨_, some result⟩ => some (.answer call result)
      | _ => none
  | .move (.get _) | .move (.answer ..) => none
  | .move m => some m
  | .proceed write =>
      match s.writings[write]? with
      | some ⟨_, .pending (.forget a :: _)⟩ => some (.invalidate a)
      | _ => none
  | .read _ | .put .. | .delete .. | .flush _ | .drop _ => none

theorem step_traffic (s : SharedSite β ω) (x : Access) :
    (s.step x).traffic = s.traffic.run (s.move? x).toList := by
  cases x with
  | get h key =>
    simp only [step, located, move?]
    cases h.scheme.derive key <;> rfl
  | read call =>
    simp only [step, read]
    split <;> rfl
  | reply call =>
    simp only [step, reply, move?]
    rcases s.readings[call]? with _ | ⟨raw, _ | result⟩ <;> rfl
  | move m => cases m <;> rfl
  | put h key value =>
    simp only [step, located]
    cases h.scheme.derive key <;> rfl
  | delete h key =>
    simp only [step, located]
    cases h.scheme.derive key <;> rfl
  | flush b => rfl
  | proceed write =>
    simp only [step, proceed, move?]
    rcases s.writings[write]? with _ | ⟨request, (_ | ⟨change | a, rest⟩) | result | _⟩ <;> rfl
  | drop write =>
    simp only [step, drop]
    split <;> rfl

def trace (s : SharedSite β ω) : List Access → List (Move Address StoreError)
  | [] => []
  | x :: rest => (s.move? x).toList ++ trace (s.step x) rest

@[simp] theorem run_nil (s : SharedSite β ω) : s.run [] = s := rfl

@[simp] theorem run_cons (s : SharedSite β ω) (x : Access) (accesses : List Access) :
    s.run (x :: accesses) = (s.step x).run accesses := rfl

@[simp] theorem run_append (s : SharedSite β ω) (accesses more : List Access) :
    s.run (accesses ++ more) = (s.run accesses).run more := List.foldl_append

theorem run_traffic (s : SharedSite β ω) (accesses : List Access) :
    (s.run accesses).traffic = s.traffic.run (s.trace accesses) := by
  induction accesses generalizing s with
  | nil => rfl
  | cons x rest ih =>
    rw [run_cons, ih, step_traffic, trace, Traffic.run_append]

/-- Each move in a trace is made by an access of the run. -/
theorem access_of_trace {s : SharedSite β ω} {accesses : List Access}
    {before after : List (Move Address StoreError)} {m : Move Address StoreError}
    (h : s.trace accesses = before ++ m :: after) :
    ∃ early x late, accesses = early ++ x :: late ∧ s.trace early = before ∧
      (s.run early).move? x = some m := by
  induction accesses generalizing s before with
  | nil => simp [trace] at h
  | cons x rest ih =>
    cases hmove : s.move? x with
    | none =>
      simp only [trace, hmove, Option.toList_none, List.nil_append] at h
      obtain ⟨early, y, late, rfl, htrace, hmade⟩ := ih h
      exact ⟨x :: early, y, late, rfl, by simp [trace, hmove, htrace], hmade⟩
    | some first =>
      simp only [trace, hmove, Option.toList_some, List.singleton_append] at h
      cases before with
      | nil =>
        cases h
        exact ⟨[], x, rest, rfl, rfl, hmove⟩
      | cons k before =>
        simp only [List.cons_append, List.cons.injEq] at h
        obtain ⟨rfl, hrest⟩ := h
        obtain ⟨early, y, late, rfl, htrace, hmade⟩ := ih hrest
        exact ⟨x :: early, y, late, rfl, by simp [trace, hmove, htrace], hmade⟩

omit [Backend β ω] in
/-- A loader is answered only with what was read for it. -/
theorem reply_of_move? {s : SharedSite β ω} {x : Access} {call : CallId}
    {result : Except StoreError Bytes} (h : s.move? x = some (.answer call result)) :
    ∃ raw, s.readings[call]? = some ⟨raw, some result⟩ := by
  cases x with
  | reply other =>
    simp only [move?] at h
    split at h
    · rename_i hreading
      cases h
      exact ⟨_, hreading⟩
    · cases h
  | get h' key =>
    simp only [move?] at h
    cases hderive : h'.scheme.derive key <;> simp [hderive, Except.toOption] at h
  | move m => cases m <;> cases h
  | proceed write =>
    simp only [move?] at h
    split at h <;> cases h
  | read | put | delete | flush | drop => cases h

end KeyedBlocks.SharedSite
