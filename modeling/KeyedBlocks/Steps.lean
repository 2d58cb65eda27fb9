/-!
Sequences of steps that stop at the first failure.
-/
namespace KeyedBlocks

/-- Take the steps in order until one fails; what the earlier ones did stands. -/
def runSteps {σ α ε : Type} (step : σ → α → σ × Except ε Unit) :
    σ → List α → σ × Except ε Unit
  | s, [] => (s, .ok ())
  | s, a :: rest =>
      match step s a with
      | (next, .ok ()) => runSteps step next rest
      | (next, .error e) => (next, .error e)

section Steps

variable {σ α ε : Type} {step : σ → α → σ × Except ε Unit} {s t : σ}

theorem runSteps_cons_ok {a : α} (h : step s a = (t, .ok ())) (rest : List α) :
    runSteps step s (a :: rest) = runSteps step t rest := by
  rw [runSteps, h]

theorem runSteps_cons_error {a : α} {e : ε} (h : step s a = (t, .error e)) (rest : List α) :
    runSteps step s (a :: rest) = (t, .error e) := by
  rw [runSteps, h]

theorem runSteps_append_ok {before : List α} (h : runSteps step s before = (t, .ok ()))
    (after : List α) : runSteps step s (before ++ after) = runSteps step t after := by
  induction before generalizing s with
  | nil =>
    cases h
    rfl
  | cons a before ih =>
    rcases hstep : step s a with ⟨next, _ | _⟩
    · rw [runSteps_cons_error hstep] at h
      cases h
    · rw [runSteps_cons_ok hstep] at h
      rw [List.cons_append, runSteps_cons_ok hstep, ih h]

theorem runSteps_append_error {before : List α} {e : ε}
    (h : runSteps step s before = (t, .error e)) (after : List α) :
    runSteps step s (before ++ after) = (t, .error e) := by
  induction before generalizing s with
  | nil => cases h
  | cons a before ih =>
    rcases hstep : step s a with ⟨next, _ | _⟩
    · rw [runSteps_cons_error hstep] at h
      rw [List.cons_append, runSteps_cons_error hstep, h]
    · rw [runSteps_cons_ok hstep] at h
      rw [List.cons_append, runSteps_cons_ok hstep, ih h]

/-- Steps succeed just if all that are taken first do, and then all others. -/
theorem runSteps_append_eq_ok_iff {before after : List α} :
    runSteps step s (before ++ after) = (t, .ok ()) ↔
      ∃ mid, runSteps step s before = (mid, .ok ()) ∧ runSteps step mid after = (t, .ok ()) := by
  constructor
  · intro h
    rcases hbefore : runSteps step s before with ⟨mid, _ | _⟩
    · rw [runSteps_append_error hbefore] at h
      cases h
    · rw [runSteps_append_ok hbefore] at h
      exact ⟨mid, rfl, h⟩
  · rintro ⟨mid, hbefore, hafter⟩
    rw [runSteps_append_ok hbefore, hafter]

theorem runSteps_cons_eq_ok_iff {a : α} {rest : List α} :
    runSteps step s (a :: rest) = (t, .ok ()) ↔
      ∃ mid, step s a = (mid, .ok ()) ∧ runSteps step mid rest = (t, .ok ()) := by
  constructor
  · intro h
    rcases hstep : step s a with ⟨mid, _ | _⟩
    · rw [runSteps_cons_error hstep] at h
      cases h
    · rw [runSteps_cons_ok hstep] at h
      exact ⟨mid, rfl, h⟩
  · rintro ⟨mid, hstep, hrest⟩
    rw [runSteps_cons_ok hstep, hrest]

/-- Steps fail just if one of them does when all before it have been taken. -/
theorem runSteps_eq_error_iff {all : List α} {e : ε} :
    runSteps step s all = (t, .error e) ↔
      ∃ before a after mid, all = before ++ a :: after ∧
        runSteps step s before = (mid, .ok ()) ∧ step mid a = (t, .error e) := by
  constructor
  · intro h
    induction all generalizing s with
    | nil => cases h
    | cons a rest ih =>
      rcases hstep : step s a with ⟨next, e' | _⟩
      · rw [runSteps_cons_error hstep] at h
        exact ⟨[], a, rest, s, rfl, rfl, hstep.trans h⟩
      · rw [runSteps_cons_ok hstep] at h
        obtain ⟨before, b, after, mid, rfl, hbefore, hfail⟩ := ih h
        exact ⟨a :: before, b, after, mid, rfl, (runSteps_cons_ok hstep _).trans hbefore, hfail⟩
  · rintro ⟨before, a, after, mid, rfl, hbefore, hfail⟩
    rw [runSteps_append_ok hbefore, runSteps_cons_error hfail]

end Steps

end KeyedBlocks
