import KeyedBlocks.Proofs.Traffic.Register
import Mathlib.Data.List.Induction

/-!
What has happened in a run: which gets started their loaders, in which order, and how the fetch of
each came to its result. The result that a fetch publishes is the answer that its loader gave, or
else the error that the time was over. As long as the timer of a fetch is prompt, its loader is
heard only while the time allowed is not over.
-/
namespace KeyedBlocks

/-- The result that a get has come to, or will publish. -/
def Phase.result? {ε : Type} : Phase ε → Option (Except ε Bytes)
  | .leading _ answer => answer
  | .settled result | .returned result => some result
  | .withdrawn | .waiting _ | .cancelled => none

namespace Traffic

variable {κ ε : Type}

def isLeading (t : Traffic κ ε) (id : CallId) : Bool :=
  (t.call? id).any fun call => call.phase.isLeading

/-- The fetch that a get led has come to its end, or was cancelled before. -/
def Ended (t : Traffic κ ε) (id : CallId) (key : κ) : Prop :=
  ∃ phase, t.call? id = some ⟨key, phase⟩ ∧ phase.hasEnded = true

theorem Ended.pastWaiting {t : Traffic κ ε} {id : CallId} {key : κ} (h : t.Ended id key) :
    t.PastWaiting id key := by
  obtain ⟨phase, hcall, hphase⟩ := h
  refine ⟨phase, hcall, ?_⟩
  cases phase <;> first | rfl | cases hphase

variable [DecidableEq κ] [TimedOut κ ε]

/-- The get that starts its loader by a move: it leads afterwards and did not lead before. -/
def loaderStart? (t : Traffic κ ε) (m : Move κ ε) : Option CallId :=
  (t.actor? m).filter fun id => !t.isLeading id && (t.step m).isLeading id

/-- The gets that start their loaders in a run, one for each start, in order. -/
def loaderStarts (t : Traffic κ ε) : List (Move κ ε) → List CallId
  | [] => []
  | m :: rest => (t.loaderStart? m).toList ++ loaderStarts (t.step m) rest

/-- A move by which the fetch of a get comes to its result: the loader answers, or the time is
over. -/
inductive Decides (t : Traffic κ ε) : Move κ ε → CallId → κ → Except ε Bytes → Prop
  | answer {id : CallId} {key : κ} {since : Nat} {result : Except ε Bytes}
      (hcall : t.call? id = some ⟨key, .leading since none⟩) :
      Decides t (.answer id result) id key result
  | expire {id : CallId} {key : κ} {since : Nat}
      (hcall : t.call? id = some ⟨key, .leading since none⟩) (htime : t.deadline since ≤ t.now) :
      Decides t (.expire id) id key (.error (TimedOut.timedOut key t.cache.config.fetchTimeout))

def Decided (t : Traffic κ ε) (moves : List (Move κ ε)) (id : CallId) (key : κ)
    (result : Except ε Bytes) : Prop :=
  ∃ before m after, moves = before ++ m :: after ∧ (t.run before).Decides m id key result

/-- The timer of a fetch is prompt: while the loader runs, the clock does not go beyond the time
allowed, so that the fetch has timed out by then or its loader is heard. -/
def Prompt (t : Traffic κ ε) (moves : List (Move κ ε)) (leader : CallId) : Prop :=
  ∀ before ms after, moves = before ++ .advance ms :: after →
    ∀ key since, (t.run before).call? leader = some ⟨key, .leading since none⟩ →
      (t.run before).now + ms ≤ (t.run before).deadline since

theorem Prompt.of_append {t : Traffic κ ε} {moves more : List (Move κ ε)} {leader : CallId}
    (h : t.Prompt (moves ++ more) leader) : t.Prompt moves leader := by
  rintro before ms after rfl
  exact h before ms (after ++ more) (by simp)

theorem Decided.append {t : Traffic κ ε} {moves : List (Move κ ε)} {id : CallId} {key : κ}
    {result : Except ε Bytes} (h : t.Decided moves id key result) (more : List (Move κ ε)) :
    t.Decided (moves ++ more) id key result := by
  obtain ⟨before, m, after, rfl, hdecides⟩ := h
  exact ⟨before, m, after ++ more, by simp, hdecides⟩

theorem Decides.step {t : Traffic κ ε} {m : Move κ ε} {id : CallId} {key : κ}
    {result : Except ε Bytes} (h : t.Decides m id key result) :
    ∃ since, t.call? id = some ⟨key, .leading since none⟩ ∧
      (t.step m).call? id = some ⟨key, .leading since (some result)⟩ := by
  cases h with
  | answer hcall =>
    refine ⟨_, hcall, ?_⟩
    simp only [Traffic.step, hcall]
    exact (became_setPhase hcall _ t.cache).self
  | expire hcall htime =>
    refine ⟨_, hcall, ?_⟩
    simp only [Traffic.step, hcall, if_pos htime]
    exact (became_setPhase hcall _ t.cache).self

theorem Decides.decided {t : Traffic κ ε} {moves : List (Move κ ε)} {m : Move κ ε} {id : CallId}
    {key : κ} {result : Except ε Bytes} (h : (t.run moves).Decides m id key result) :
    t.Decided (moves ++ [m]) id key result :=
  ⟨moves, m, [], rfl, h⟩

/-- A loader is started only by a look-up that finds neither a live entry nor a fetch. -/
theorem turn_of_loaderStart {t : Traffic κ ε} {m : Move κ ε} {id : CallId}
    (h : t.loaderStart? m = some id) :
    ∃ key first, t.Asks m id key first ∧ t.cache.peek t.now key = none ∧
      t.cache.leader? key = none ∧
      t.Became (t.step m) id ⟨key, .leading t.now none⟩ { t.cache with
        held := (t.cache.held.lookup t.now key).2
        inflight := Assoc.insert key id t.cache.inflight
        stats := { t.cache.missed first with loads := t.cache.stats.loads + 1 } } := by
  obtain ⟨hactor, hleads⟩ := Option.filter_eq_some_iff.1 h
  simp only [Bool.and_eq_true, Bool.not_eq_true'] at hleads
  obtain ⟨hbefore, hafter⟩ := hleads
  cases hturn : step_turn t m with
  | lead hasks hpeek hleader hbecame =>
    obtain rfl := hasks.eq_of_actor hactor
    exact ⟨_, _, hasks, hpeek, hleader, hbecame⟩
  | idle hsame => simp [hsame, hbefore] at hafter
  | hit hasks _ hbecame | attach hasks _ _ hbecame =>
    obtain rfl := hasks.eq_of_actor hactor
    simp [isLeading, hbecame.self, Phase.isLeading] at hafter
  | answer hcall _ | expire hcall _ _ =>
    cases hactor
    simp [isLeading, hcall, Phase.isLeading] at hbefore
  | settle _ hbecame | publish _ hbecame | receive _ _ hbecame | withdraw _ hbecame
  | leave _ hbecame | close _ hbecame =>
    cases hactor
    simp [isLeading, hbecame.self, Phase.isLeading] at hafter
  | invalidate | clear | advance => cases hactor

theorem not_pastWaiting_of_loaderStart {t : Traffic κ ε} {m : Move κ ε} {id : CallId} {key : κ}
    (h : t.loaderStart? m = some id) : ¬ t.PastWaiting id key := by
  obtain ⟨_, _, hasks, _⟩ := turn_of_loaderStart h
  exact hasks.not_pastWaiting

theorem pastWaiting_of_loaderStart {t : Traffic κ ε} {m : Move κ ε} {id : CallId}
    (h : t.loaderStart? m = some id) : ∃ key, (t.step m).PastWaiting id key := by
  obtain ⟨key, _, _, _, _, hbecame⟩ := turn_of_loaderStart h
  exact ⟨key, _, hbecame.self, rfl⟩

theorem loaderStart?_of_lead {t : Traffic κ ε} {m : Move κ ε} {id : CallId} {key : κ}
    {first : Bool} {since : Nat} {cache : ReadCache κ} (hasks : t.Asks m id key first)
    (hbecame : t.Became (t.step m) id ⟨key, .leading since none⟩ cache) :
    t.loaderStart? m = some id := by
  have hbefore : t.isLeading id = false := by
    cases hasks with
    | first => simp [isLeading, call?]
    | again hcall _ => simp [isLeading, hcall, Phase.isLeading]
  have hafter : (t.step m).isLeading id = true := by
    simp [isLeading, hbecame.self, Phase.isLeading]
  simp [loaderStart?, hasks.actor, hbefore, hafter]

/-- Each start of a loader is counted, and nothing else is counted as one. -/
theorem loads_step (t : Traffic κ ε) (m : Move κ ε) :
    (t.step m).cache.stats.loads = t.cache.stats.loads + (t.loaderStart? m).toList.length := by
  cases hstart : t.loaderStart? m with
  | some id =>
    obtain ⟨_, _, _, _, _, hbecame⟩ := turn_of_loaderStart hstart
    simp [hbecame.cache_eq]
  | none =>
    cases step_turn t m with
    | lead hasks _ _ hbecame =>
      rw [loaderStart?_of_lead hasks hbecame] at hstart
      cases hstart
    | idle hsame => simp [hsame]
    | hit _ _ hbecame | attach _ _ _ hbecame | answer _ hbecame | expire _ _ hbecame
    | settle _ hbecame | publish _ hbecame | receive _ _ hbecame | withdraw _ hbecame
    | leave _ hbecame | close _ hbecame =>
      simp [hbecame.cache_eq, ReadCache.missed]
    | invalidate _ _ hcache | clear _ _ hcache | advance _ _ hcache =>
      simp [hcache, ReadCache.invalidate, ReadCache.clear]

theorem loads_run (t : Traffic κ ε) (moves : List (Move κ ε)) :
    (t.run moves).cache.stats.loads = t.cache.stats.loads + (t.loaderStarts moves).length := by
  induction moves generalizing t with
  | nil => rfl
  | cons m rest ih =>
    have hstep := loads_step t m
    simp only [run_cons, loaderStarts, List.length_append, ih]
    omega

theorem loaderStarts_append (t : Traffic κ ε) (moves more : List (Move κ ε)) :
    t.loaderStarts (moves ++ more) = t.loaderStarts moves ++ (t.run moves).loaderStarts more := by
  induction moves generalizing t with
  | nil => rfl
  | cons m rest ih => simp [loaderStarts, ih]

theorem mem_loaderStarts_concat {t : Traffic κ ε} {moves : List (Move κ ε)} {m : Move κ ε}
    {id : CallId} :
    id ∈ t.loaderStarts (moves ++ [m]) ↔
      id ∈ t.loaderStarts moves ∨ (t.run moves).loaderStart? m = some id := by
  simp [loaderStarts_append, loaderStarts]

/-- A get that is past waiting does not start its loader any more. -/
theorem not_mem_loaderStarts {t : Traffic κ ε} {id : CallId} {key : κ}
    (h : t.PastWaiting id key) (moves : List (Move κ ε)) : id ∉ t.loaderStarts moves := by
  induction moves generalizing t with
  | nil => exact List.not_mem_nil
  | cons m rest ih =>
    simp only [loaderStarts, List.mem_append, Option.mem_toList, not_or]
    exact ⟨fun hstart => not_pastWaiting_of_loaderStart hstart h, ih (pastWaiting_step m h)⟩

/-- No get starts its loader twice. -/
theorem loaderStarts_nodup (t : Traffic κ ε) (moves : List (Move κ ε)) :
    (t.loaderStarts moves).Nodup := by
  induction moves generalizing t with
  | nil => exact List.nodup_nil
  | cons m rest ih =>
    simp only [loaderStarts]
    cases hstart : t.loaderStart? m with
    | none => simpa using ih (t.step m)
    | some id =>
      obtain ⟨key, hpast⟩ := pastWaiting_of_loaderStart hstart
      simpa using ⟨not_mem_loaderStarts hpast rest, ih (t.step m)⟩

theorem pastWaiting_of_mem_loaderStarts {t : Traffic κ ε} {moves : List (Move κ ε)} {id : CallId}
    (h : id ∈ t.loaderStarts moves) : ∃ key, (t.run moves).PastWaiting id key := by
  induction moves using List.reverseRecOn with
  | nil => exact absurd h List.not_mem_nil
  | append_singleton moves m ih =>
    rw [run_append]
    rcases mem_loaderStarts_concat.1 h with hold | hstart
    · obtain ⟨key, hpast⟩ := ih hold
      exact ⟨key, pastWaiting_step m hpast⟩
    · exact pastWaiting_of_loaderStart hstart

/-- A get that has led keeps its result, or the move decides it. -/
theorem result_of_step {t : Traffic κ ε} {m : Move κ ε} {id : CallId} {key other : κ}
    {phase : Phase ε} {result : Except ε Bytes} (hpast : t.PastWaiting id other)
    (hcall : (t.step m).call? id = some ⟨key, phase⟩) (hresult : phase.result? = some result) :
    (∃ old, t.call? id = some ⟨key, old⟩ ∧ old.result? = some result) ∨
      t.Decides m id key result := by
  by_cases hactor : t.actor? m = some id
  · cases step_turn t m with
    | idle hsame => exact Or.inl ⟨phase, hsame ▸ hcall, hresult⟩
    | hit hasks | attach hasks | lead hasks =>
      obtain rfl := hasks.eq_of_actor hactor
      exact absurd hpast hasks.not_pastWaiting
    | answer hold hbecame =>
      cases hactor
      cases hbecame.self.symm.trans hcall
      cases hresult
      exact Or.inr (.answer hold)
    | expire hold htime hbecame =>
      cases hactor
      cases hbecame.self.symm.trans hcall
      cases hresult
      exact Or.inr (.expire hold htime)
    | settle hold hbecame | publish hold hbecame =>
      cases hactor
      cases hbecame.self.symm.trans hcall
      exact Or.inl ⟨_, hold, hresult⟩
    | receive hold =>
      cases hactor
      obtain ⟨old, hsame, hphase⟩ := hpast
      cases hold.symm.trans hsame
      cases hphase
    | withdraw _ hbecame | leave _ hbecame | close _ hbecame =>
      cases hactor
      cases hbecame.self.symm.trans hcall
      cases hresult
    | invalidate | clear | advance => cases hactor
  · exact Or.inl ⟨phase, (call?_step_of_ne hactor).symm.trans hcall, hresult⟩

/-- Whatever result a get that led has come to was decided by its loader or by the time. -/
theorem decided_of_result {t : Traffic κ ε} {moves : List (Move κ ε)} {id : CallId} {key : κ}
    {phase : Phase ε} {result : Except ε Bytes} (hstarted : id ∈ t.loaderStarts moves)
    (hcall : (t.run moves).call? id = some ⟨key, phase⟩) (hresult : phase.result? = some result) :
    t.Decided moves id key result := by
  induction moves using List.reverseRecOn generalizing phase with
  | nil => exact absurd hstarted List.not_mem_nil
  | append_singleton moves m ih =>
    rw [run_append] at hcall
    rcases mem_loaderStarts_concat.1 hstarted with hold | hstart
    · obtain ⟨other, hpast⟩ := pastWaiting_of_mem_loaderStarts hold
      rcases result_of_step hpast hcall hresult with ⟨old, hbefore, hsame⟩ | hdecides
      · exact (ih hold hbefore hsame).append [m]
      · exact hdecides.decided
    · obtain ⟨_, _, _, _, _, hbecame⟩ := turn_of_loaderStart hstart
      cases hbecame.self.symm.trans hcall
      cases hresult

/-- The time from which a loader runs is the time at which it was started, and once it has given its
answer it runs no more. -/
theorem leading_of_step {t : Traffic κ ε} {m : Move κ ε} {id : CallId} {key : κ} {since : Nat}
    {answer : Option (Except ε Bytes)}
    (hcall : (t.step m).call? id = some ⟨key, .leading since answer⟩) :
    (∃ old, t.call? id = some ⟨key, .leading since old⟩ ∧ (answer = none → old = none)) ∨
      (t.loaderStart? m = some id ∧ t.now = since) := by
  by_cases hactor : t.actor? m = some id
  · cases step_turn t m with
    | idle hsame => exact Or.inl ⟨answer, hsame ▸ hcall, fun h => h⟩
    | lead hasks _ _ hbecame =>
      obtain rfl := hasks.eq_of_actor hactor
      cases hbecame.self.symm.trans hcall
      exact Or.inr ⟨loaderStart?_of_lead hasks hbecame, rfl⟩
    | answer hold hbecame | expire hold _ hbecame =>
      cases hactor
      cases hbecame.self.symm.trans hcall
      exact Or.inl ⟨none, hold, fun _ => rfl⟩
    | hit hasks _ hbecame | attach hasks _ _ hbecame =>
      obtain rfl := hasks.eq_of_actor hactor
      cases hbecame.self.symm.trans hcall
    | settle _ hbecame | publish _ hbecame | receive _ _ hbecame | withdraw _ hbecame
    | leave _ hbecame | close _ hbecame =>
      cases hactor
      cases hbecame.self.symm.trans hcall
    | invalidate | clear | advance => cases hactor
  · exact Or.inl ⟨answer, (call?_step_of_ne hactor).symm.trans hcall, fun h => h⟩

/-- In a run that begins with no gets, a get that leads has started its loader. -/
theorem started_of_leading {t : Traffic κ ε} {moves : List (Move κ ε)} {id : CallId} {key : κ}
    {since : Nat} {answer : Option (Except ε Bytes)} (hnew : t.isLeading id = false)
    (hcall : (t.run moves).call? id = some ⟨key, .leading since answer⟩) :
    ∃ before m after, moves = before ++ m :: after ∧
      (t.run before).loaderStart? m = some id ∧ (t.run before).now = since := by
  induction moves using List.reverseRecOn generalizing answer with
  | nil => simp [isLeading, show t.call? id = _ from hcall, Phase.isLeading] at hnew
  | append_singleton moves m ih =>
    rw [run_append] at hcall
    rcases leading_of_step hcall with ⟨old, hbefore, _⟩ | ⟨hstart, hnow⟩
    · obtain ⟨before, move, after, rfl, hstart⟩ := ih hbefore
      exact ⟨before, move, after ++ [m], by simp, hstart⟩
    · exact ⟨moves, m, [], rfl, hstart, hnow⟩

/-- With a prompt timer, the time of a loader that runs is not over. -/
theorem now_le_deadline {t : Traffic κ ε} {moves : List (Move κ ε)} {leader : CallId} {key : κ}
    {since : Nat} (hnew : t.isLeading leader = false) (hprompt : t.Prompt moves leader)
    (hcall : (t.run moves).call? leader = some ⟨key, .leading since none⟩) :
    (t.run moves).now ≤ (t.run moves).deadline since := by
  induction moves using List.reverseRecOn with
  | nil => simp [isLeading, show t.call? leader = _ from hcall, Phase.isLeading] at hnew
  | append_singleton moves m ih =>
    rw [run_append] at hcall
    have hdeadline : (t.run (moves ++ [m])).deadline since = (t.run moves).deadline since := by
      rw [deadline, deadline, config_run, config_run]
    rw [hdeadline, run_append]
    rcases leading_of_step hcall with ⟨old, hbefore, hrunning⟩ | ⟨hstart, rfl⟩
    · obtain rfl := hrunning rfl
      rcases now_step (t.run moves) m with hsame | ⟨ms, rfl, hlater⟩
      · exact Nat.le_trans (Nat.le_of_eq hsame) (ih hprompt.of_append hbefore)
      · exact Nat.le_trans (Nat.le_of_eq hlater) (hprompt moves ms [] rfl key since hbefore)
    · -- The loader starts just now, and no time passes by that.
      rcases now_step (t.run moves) m with hsame | ⟨ms, rfl, _⟩
      · exact Nat.le_trans (Nat.le_of_eq hsame) (Nat.le_add_right ..)
      · cases hstart

end Traffic

end KeyedBlocks
