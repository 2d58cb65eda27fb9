import KeyedBlocks.Proofs.Shared.Trace
import Mathlib.Data.List.Induction

/-!
How the writes of a shared site go on. A write changes only when it proceeds itself or is dropped,
it makes the steps of its plan one after the other, and it ends with success only after all of them
were made.
-/
namespace KeyedBlocks

/-- The steps that a write has still to make, unless it has failed or was dropped. -/
def Progress.left? {ω : Type} : Progress ω → Option (List (Effect ω))
  | .pending plan => some plan
  | .ended (.ok _) => some []
  | .ended (.error _) | .dropped => none

namespace SharedSite

variable {β ω : Type}

theorem setProgress_self {s : SharedSite β ω} {i : Nat} {request : Request}
    {progress : Progress ω} (h : s.writings[i]? = some ⟨request, progress⟩) (next : Progress ω) :
    (s.setProgress i next).writings[i]? = some ⟨request, next⟩ := by
  simp [setProgress, h]

theorem setProgress_of_ne {s : SharedSite β ω} {i j : Nat} (h : i ≠ j) (next : Progress ω) :
    (s.setProgress j next).writings[i]? = s.writings[i]? := by
  simp [setProgress, Ne.symm h]

variable [Backend β ω]

inductive Advance (s s' : SharedSite β ω) (i : Nat) : Access → Progress ω → Progress ω → Prop
  | same {x : Access} (progress : Progress ω) : Advance s s' i x progress progress
  | perform {change : ω} (rest : List (Effect ω))
      (hbackend : s'.backend = (Backend.perform s.backend change).1) :
      Advance s s' i (.proceed i) (.pending (.perform change :: rest))
        (.goOn rest (Backend.perform s.backend change).2)
  | forget {a : Address} (rest : List (Effect ω))
      (htraffic : s'.traffic = s.traffic.step (.invalidate a)) :
      Advance s s' i (.proceed i) (.pending (.forget a :: rest)) (.pending rest)
  | finish : Advance s s' i (.proceed i) (.pending []) (.ended (.ok ()))
  | drop (plan : List (Effect ω)) : Advance s s' i (.drop i) (.pending plan) .dropped

theorem writings_read (s : SharedSite β ω) (call : CallId) :
    (s.read call).writings = s.writings := by
  simp only [read]
  split <;> rfl

omit [Backend β ω] in
theorem writings_reply (s : SharedSite β ω) (call : CallId) :
    (s.reply call).writings = s.writings := by
  simp only [reply]
  split <;> rfl

theorem writings_move (s : SharedSite β ω) (m : Move Address StoreError) :
    (s.move m).writings = s.writings := by
  cases m <;> rfl

theorem writings_beginWrite {s : SharedSite β ω} {request other : Request} {i : Nat}
    {progress : Progress ω} (h : s.writings[i]? = some ⟨request, progress⟩) :
    (s.beginWrite other).writings[i]? = some ⟨request, progress⟩ := by
  have hlt : i < s.writings.length := (List.getElem?_eq_some_iff.1 h).1
  simpa [beginWrite, List.getElem?_append_left hlt] using h

theorem proceed_perform {s : SharedSite β ω} {i : Nat} {request : Request} {change : ω}
    {rest : List (Effect ω)}
    (h : s.writings[i]? = some ⟨request, .pending (.perform change :: rest)⟩) :
    (s.proceed i).writings[i]? =
      some ⟨request, .goOn rest (Backend.perform s.backend change).2⟩ := by
  simp only [proceed, h]
  exact setProgress_self (s := { s with backend := _ }) h _

/-- The write that proceeds makes its next step. -/
theorem advance_proceed {s : SharedSite β ω} {i : Nat} {request : Request}
    {progress : Progress ω} (h : s.writings[i]? = some ⟨request, progress⟩) :
    ∃ next, (s.proceed i).writings[i]? = some ⟨request, next⟩ ∧
      Advance s (s.proceed i) i (.proceed i) progress next := by
  rcases progress with (_ | ⟨change | a, rest⟩) | result | _
  · refine ⟨_, ?_, .finish⟩
    simp only [proceed, h]
    exact setProgress_self h _
  · refine ⟨_, proceed_perform h, .perform rest ?_⟩
    simp only [proceed, h]
    rfl
  · refine ⟨_, ?_, .forget rest ?_⟩
    · simp only [proceed, h]
      exact setProgress_self (s := s.follow (.invalidate a)) h _
    · simp only [proceed, h]
      rfl
  · refine ⟨_, ?_, .same _⟩
    simp only [proceed, h]
  · refine ⟨_, ?_, .same _⟩
    simp only [proceed, h]

theorem proceed_of_ne {s : SharedSite β ω} {i j : Nat} (hne : i ≠ j) :
    (s.proceed j).writings[i]? = s.writings[i]? := by
  simp only [proceed]
  split
  · exact setProgress_of_ne hne _
  · exact setProgress_of_ne hne _
  · exact setProgress_of_ne hne _
  · rfl

omit [Backend β ω] in
theorem drop_of_ne {s : SharedSite β ω} {i j : Nat} (hne : i ≠ j) :
    (s.drop j).writings[i]? = s.writings[i]? := by
  simp only [drop]
  split
  · exact setProgress_of_ne hne _
  · rfl

theorem advance_drop {s : SharedSite β ω} {i : Nat} {request : Request} {progress : Progress ω}
    (h : s.writings[i]? = some ⟨request, progress⟩) :
    ∃ next, (s.drop i).writings[i]? = some ⟨request, next⟩ ∧
      Advance s (s.drop i) i (.drop i) progress next := by
  cases progress with
  | pending plan =>
    refine ⟨_, ?_, .drop plan⟩
    simp only [drop, h]
    exact setProgress_self h _
  | ended | dropped =>
    refine ⟨_, ?_, .same _⟩
    simp only [drop, h]

omit [Backend β ω] in
theorem located_cases (s : SharedSite β ω) (h : Handle) (key : Key)
    (act : Address → SharedSite β ω) :
    s.located h key act = s ∨ ∃ a, h.scheme.derive key = .ok a ∧ s.located h key act = act a := by
  unfold located
  cases h.scheme.derive key with
  | ok a => exact Or.inr ⟨a, rfl, rfl⟩
  | error e => exact Or.inl rfl

/-- An access leaves a write as it is, begins another, or is a step of the write itself. -/
theorem writing_cases (s : SharedSite β ω) (x : Access) (i : Nat) :
    (s.step x).writings[i]? = s.writings[i]? ∨ (∃ request, s.step x = s.beginWrite request) ∨
      x = .proceed i ∨ x = .drop i := by
  cases x with
  | get handle key =>
    left
    rcases located_cases s handle key (s.beginGet key.raw) with hsame | ⟨a, _, hbegin⟩
    · exact congrArg (fun s => s.writings[i]?) hsame
    · exact congrArg (fun s => s.writings[i]?) hbegin
  | read call => exact Or.inl (congrArg (·[i]?) (writings_read s call))
  | reply call => exact Or.inl (congrArg (·[i]?) (writings_reply s call))
  | move m => exact Or.inl (congrArg (·[i]?) (writings_move s m))
  | put handle key value =>
    rcases located_cases s handle key fun a => s.beginWrite (.put key.raw a value) with
      hsame | ⟨a, _, hbegin⟩
    · exact Or.inl (congrArg (fun s => s.writings[i]?) hsame)
    · exact Or.inr (Or.inl ⟨_, hbegin⟩)
  | delete handle key =>
    rcases located_cases s handle key fun a => s.beginWrite (.delete key.raw a) with
      hsame | ⟨a, _, hbegin⟩
    · exact Or.inl (congrArg (fun s => s.writings[i]?) hsame)
    · exact Or.inr (Or.inl ⟨_, hbegin⟩)
  | flush b => exact Or.inr (Or.inl ⟨_, rfl⟩)
  | proceed j =>
    by_cases hid : i = j
    · exact Or.inr (Or.inr (Or.inl (hid ▸ rfl)))
    · exact Or.inl (proceed_of_ne hid)
  | drop j =>
    by_cases hid : i = j
    · exact Or.inr (Or.inr (Or.inr (hid ▸ rfl)))
    · exact Or.inl (drop_of_ne hid)

/-- Whatever happens at a shared site, a write has advanced by at most one step afterwards. -/
theorem advance_step {s : SharedSite β ω} {i : Nat} {request : Request} {progress : Progress ω}
    (x : Access) (h : s.writings[i]? = some ⟨request, progress⟩) :
    ∃ next, (s.step x).writings[i]? = some ⟨request, next⟩ ∧
      Advance s (s.step x) i x progress next := by
  rcases writing_cases s x i with hsame | ⟨other, hbegin⟩ | rfl | rfl
  · exact ⟨progress, hsame.trans h, .same progress⟩
  · exact ⟨progress, hbegin ▸ writings_beginWrite h, .same progress⟩
  · exact advance_proceed h
  · exact advance_drop h

theorem begun_beginWrite {s : SharedSite β ω} {i : Nat} {request other : Request}
    {progress : Progress ω} (hnew : s.writings[i]? = none)
    (h : (s.beginWrite other).writings[i]? = some ⟨request, progress⟩) :
    progress = .pending (request.plan β) := by
  have hle : s.writings.length ≤ i := List.getElem?_eq_none_iff.1 hnew
  simp only [beginWrite, List.getElem?_append_right hle] at h
  have hzero := (List.getElem?_eq_some_iff.1 h).1
  simp only [List.length_singleton, Nat.lt_one_iff] at hzero
  simp only [hzero, List.getElem?_cons_zero, Option.some.injEq, Writing.mk.injEq] at h
  obtain ⟨rfl, rfl⟩ := h
  rfl

/-- A write begins with its whole plan before it. -/
theorem plan_of_begun {s : SharedSite β ω} {x : Access} {i : Nat} {request : Request}
    {progress : Progress ω} (hnew : s.writings[i]? = none)
    (h : (s.step x).writings[i]? = some ⟨request, progress⟩) :
    progress = .pending (request.plan β) := by
  rcases writing_cases s x i with hsame | ⟨other, hbegin⟩ | rfl | rfl
  · cases (hsame.trans hnew).symm.trans h
  · rw [hbegin] at h
    exact begun_beginWrite hnew h
  · simp only [step, proceed, hnew] at h
    cases h
  · simp only [step, drop, hnew] at h
    cases h

/-- A write is just about to make a step that will not fail. -/
def Makes (s : SharedSite β ω) (i : Nat) (effect : Effect ω) (rest : List (Effect ω)) : Prop :=
  ∃ request, s.writings[i]? = some ⟨request, .pending (effect :: rest)⟩ ∧
    ∀ change, effect = .perform change → (Backend.perform s.backend change).2 = .ok ()

/-- All steps of a plan but those left were made in the run. -/
structure Behind (s : SharedSite β ω) (accesses : List Access) (i : Nat)
    (plan left : List (Effect ω)) : Prop where
  suffix : left <:+ plan
  made : ∀ before effect after, plan = before ++ effect :: after → left.length ≤ after.length →
    ∃ early late, accesses = early ++ .proceed i :: late ∧ (s.run early).Makes i effect after

theorem Behind.append {s : SharedSite β ω} {accesses : List Access} {i : Nat}
    {plan left : List (Effect ω)} (h : s.Behind accesses i plan left) (x : Access) :
    s.Behind (accesses ++ [x]) i plan left where
  suffix := h.suffix
  made before effect after hplan hlength := by
    obtain ⟨early, late, rfl, hmakes⟩ := h.made before effect after hplan hlength
    exact ⟨early, late ++ [x], by simp, hmakes⟩

theorem behind_begin (s : SharedSite β ω) (accesses : List Access) (i : Nat)
    (plan : List (Effect ω)) : s.Behind accesses i plan plan where
  suffix := List.suffix_rfl
  made before effect after hplan hlength := by
    have hlong := congrArg List.length hplan
    simp only [List.length_append, List.length_cons] at hlong
    omega

theorem Behind.make {s : SharedSite β ω} {accesses : List Access} {i : Nat}
    {plan rest : List (Effect ω)} {effect : Effect ω}
    (h : s.Behind accesses i plan (effect :: rest))
    (hmakes : (s.run accesses).Makes i effect rest) :
    s.Behind (accesses ++ [.proceed i]) i plan rest where
  suffix := (List.suffix_cons effect rest).trans h.suffix
  made before other after hplan hlength := by
    rcases Nat.lt_or_ge rest.length after.length with hlt | hge
    · exact (h.append (.proceed i)).made before other after hplan hlt
    · obtain ⟨front, hfront⟩ := h.suffix
      have hsame : before ++ other :: after = front ++ effect :: rest :=
        hplan.symm.trans hfront.symm
      have htail := List.append_inj_right' hsame (by simp only [List.length_cons]; omega)
      cases htail
      exact ⟨accesses, [], rfl, hmakes⟩

theorem behind_run {s : SharedSite β ω} {accesses : List Access} {i : Nat} {request : Request}
    {progress : Progress ω} {left : List (Effect ω)} (hnew : s.writings[i]? = none)
    (hwrite : (s.run accesses).writings[i]? = some ⟨request, progress⟩)
    (hleft : progress.left? = some left) : s.Behind accesses i (request.plan β) left := by
  induction accesses using List.reverseRecOn generalizing progress left with
  | nil => cases hnew.symm.trans hwrite
  | append_singleton accesses x ih =>
    rw [run_append] at hwrite
    rcases hbefore : (s.run accesses).writings[i]? with _ | ⟨other, old⟩
    · cases plan_of_begun hbefore hwrite
      cases hleft
      exact behind_begin s _ i _
    · obtain ⟨next, hnext, hadvance⟩ := advance_step x hbefore
      cases hnext.symm.trans hwrite
      cases hadvance with
      | same => exact (ih hbefore hleft).append x
      | @perform change rest =>
        have hold := ih hbefore rfl
        rcases hresult : (Backend.perform (s.run accesses).backend change).2 with e | _
        · rw [hresult] at hleft
          cases hleft
        · rw [hresult] at hleft
          cases hleft
          refine hold.make ⟨request, hbefore, ?_⟩
          intro made hmade
          cases hmade
          exact hresult
      | forget rest =>
        cases hleft
        refine (ih hbefore rfl).make ⟨request, hbefore, ?_⟩
        intro made hmade
        cases hmade
      | finish =>
        cases hleft
        exact (ih hbefore rfl).append _
      | drop => cases hleft

end SharedSite

end KeyedBlocks
