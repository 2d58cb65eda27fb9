import KeyedBlocks.Cache.Traffic
import KeyedBlocks.Proofs.Cache.Flights

/-!
What one move of the traffic machine can do. Every move either changes nothing or takes one of the
turns listed here, and apart from the get that acts no get is touched by it. All that is proved
about runs rests on this list.
-/
namespace KeyedBlocks

namespace Phase

variable {ε : Type}

def isLeading : Phase ε → Bool
  | .leading .. => true
  | _ => false

def isWaiting : Phase ε → Bool
  | .waiting _ => true
  | _ => false

def isOver : Phase ε → Bool
  | .returned _ | .cancelled => true
  | _ => false

/-- The fetch of a get that led has come to its end, or was cancelled before. -/
def hasEnded : Phase ε → Bool
  | .settled _ | .withdrawn | .returned _ | .cancelled => true
  | _ => false

end Phase

namespace Traffic

variable {κ ε : Type}

def actor? (t : Traffic κ ε) : Move κ ε → Option CallId
  | .get _ => some t.calls.length
  | .answer id _ | .expire id | .settle id | .publish id | .look id | .cancel id | .close id =>
      some id
  | .invalidate _ | .clear | .advance _ => none

/-- One get has become `call` and the cache has become `cache`; nothing else has changed. -/
structure Became (t t' : Traffic κ ε) (id : CallId) (call : Call κ ε) (cache : ReadCache κ) :
    Prop where
  self : t'.call? id = some call
  other : ∀ other, other ≠ id → t'.call? other = t.call? other
  cache_eq : t'.cache = cache
  now_eq : t'.now = t.now

theorem became_setPhase {t : Traffic κ ε} {id : CallId} {call : Call κ ε}
    (h : t.call? id = some call) (phase : Phase ε) (cache : ReadCache κ) :
    t.Became ({ t with cache }.setPhase id phase) id ⟨call.key, phase⟩ cache where
  self := by
    unfold call? at h
    simp [call?, setPhase, h]
  other other hne := by simp [call?, setPhase, Ne.symm hne]
  cache_eq := rfl
  now_eq := rfl

/-- A move by which a get looks its key up: it begins, or the leader it waits for was cancelled.
Its first look-up is marked. -/
inductive Asks (t : Traffic κ ε) : Move κ ε → CallId → κ → Bool → Prop
  | first (key : κ) : Asks t (.get key) t.calls.length key true
  | again {id leader : CallId} {key other : κ}
      (hcall : t.call? id = some ⟨key, .waiting leader⟩)
      (hleader : t.call? leader = some ⟨other, .cancelled⟩) : Asks t (.look id) id key false

/-- The get that looks its key up acts. -/
theorem Asks.actor {t : Traffic κ ε} {m : Move κ ε} {id : CallId} {key : κ} {first : Bool}
    (h : t.Asks m id key first) : t.actor? m = some id := by
  cases h <;> rfl

theorem Asks.eq_of_actor {t : Traffic κ ε} {m : Move κ ε} {id other : CallId} {key : κ}
    {first : Bool} (h : t.Asks m id key first) (hactor : t.actor? m = some other) : id = other :=
  Option.some.inj (h.actor.symm.trans hactor)

variable [DecidableEq κ]

theorem became_begin (t : Traffic κ ε) (key : κ) :
    t.Became (t.begin key) t.calls.length
      ⟨key, Admission.phase t.now (t.cache.consult t.now t.calls.length true key).1⟩
      (t.cache.consult t.now t.calls.length true key).2 where
  self := by simp [begin, call?]
  other other hne := by
    rcases Nat.lt_or_gt_of_ne hne with hlt | hgt
    · simp [begin, call?, List.getElem?_append_left hlt]
    · have hnew : t.calls.length + 1 ≤ other := hgt
      have hold : t.calls[other]? = none := List.getElem?_eq_none (Nat.le_of_lt hgt)
      show (t.calls ++ [_])[other]? = t.calls[other]?
      rw [hold]
      exact List.getElem?_eq_none (by simpa using hnew)
  cache_eq := rfl
  now_eq := rfl

theorem became_retry {t : Traffic κ ε} {id leader : CallId} {key : κ}
    (h : t.call? id = some ⟨key, .waiting leader⟩) :
    t.Became (t.retry id key) id
      ⟨key, Admission.phase t.now (t.cache.consult t.now id false key).1⟩
      (t.cache.consult t.now id false key).2 :=
  became_setPhase h _ _

variable [TimedOut κ ε]

/-- The turns of the traffic machine, each under the condition for taking it. -/
inductive Turn (t t' : Traffic κ ε) : Move κ ε → Prop
  | idle {m : Move κ ε} (hsame : t' = t) : Turn t t' m
  | hit {m : Move κ ε} {id : CallId} {key : κ} {first : Bool} {value : Bytes}
      (hasks : t.Asks m id key first) (hpeek : t.cache.peek t.now key = some value)
      (hbecame : t.Became t' id ⟨key, .returned (.ok value)⟩ { t.cache with
        held := (t.cache.held.lookup t.now key).2
        stats := { t.cache.stats with hits := t.cache.stats.hits + 1 } }) : Turn t t' m
  | attach {m : Move κ ε} {id leader : CallId} {key : κ} {first : Bool}
      (hasks : t.Asks m id key first) (hpeek : t.cache.peek t.now key = none)
      (hleader : t.cache.leader? key = some leader)
      (hbecame : t.Became t' id ⟨key, .waiting leader⟩ { t.cache with
        held := (t.cache.held.lookup t.now key).2
        stats := { t.cache.missed first with coalesced := t.cache.stats.coalesced + 1 } }) :
      Turn t t' m
  | lead {m : Move κ ε} {id : CallId} {key : κ} {first : Bool}
      (hasks : t.Asks m id key first) (hpeek : t.cache.peek t.now key = none)
      (hleader : t.cache.leader? key = none)
      (hbecame : t.Became t' id ⟨key, .leading t.now none⟩ { t.cache with
        held := (t.cache.held.lookup t.now key).2
        inflight := Assoc.insert key id t.cache.inflight
        stats := { t.cache.missed first with loads := t.cache.stats.loads + 1 } }) : Turn t t' m
  | answer {id : CallId} {key : κ} {since : Nat} {result : Except ε Bytes}
      (hcall : t.call? id = some ⟨key, .leading since none⟩)
      (hbecame : t.Became t' id ⟨key, .leading since (some result)⟩ t.cache) :
      Turn t t' (.answer id result)
  | expire {id : CallId} {key : κ} {since : Nat}
      (hcall : t.call? id = some ⟨key, .leading since none⟩) (htime : t.deadline since ≤ t.now)
      (hbecame : t.Became t' id ⟨key, .leading since
        (some (.error (TimedOut.timedOut key t.cache.config.fetchTimeout)))⟩ t.cache) :
      Turn t t' (.expire id)
  | settle {id : CallId} {key : κ} {since : Nat} {result : Except ε Bytes}
      (hcall : t.call? id = some ⟨key, .leading since (some result)⟩)
      (hbecame : t.Became t' id ⟨key, .settled result⟩ (t.cache.settle t.now id key result)) :
      Turn t t' (.settle id)
  | publish {id : CallId} {key : κ} {result : Except ε Bytes}
      (hcall : t.call? id = some ⟨key, .settled result⟩)
      (hbecame : t.Became t' id ⟨key, .returned result⟩ t.cache) : Turn t t' (.publish id)
  | receive {id leader : CallId} {key other : κ} {result : Except ε Bytes}
      (hcall : t.call? id = some ⟨key, .waiting leader⟩)
      (hleader : t.call? leader = some ⟨other, .returned result⟩)
      (hbecame : t.Became t' id ⟨key, .returned result⟩ t.cache) : Turn t t' (.look id)
  | withdraw {id : CallId} {key : κ} {since : Nat} {answer : Option (Except ε Bytes)}
      (hcall : t.call? id = some ⟨key, .leading since answer⟩)
      (hbecame : t.Became t' id ⟨key, .withdrawn⟩ (t.cache.withdraw id key)) :
      Turn t t' (.cancel id)
  | leave {id leader : CallId} {key : κ} (hcall : t.call? id = some ⟨key, .waiting leader⟩)
      (hbecame : t.Became t' id ⟨key, .cancelled⟩ t.cache) : Turn t t' (.cancel id)
  | close {id : CallId} {key : κ} (hcall : t.call? id = some ⟨key, .withdrawn⟩)
      (hbecame : t.Became t' id ⟨key, .cancelled⟩ t.cache) : Turn t t' (.close id)
  | invalidate {key : κ} (hcalls : ∀ id, t'.call? id = t.call? id) (hnow : t'.now = t.now)
      (hcache : t'.cache = t.cache.invalidate key) : Turn t t' (.invalidate key)
  | clear (hcalls : ∀ id, t'.call? id = t.call? id) (hnow : t'.now = t.now)
      (hcache : t'.cache = t.cache.clear) : Turn t t' .clear
  | advance {ms : Nat} (hcalls : ∀ id, t'.call? id = t.call? id) (hnow : t'.now = t.now + ms)
      (hcache : t'.cache = t.cache) : Turn t t' (.advance ms)

/-- A look-up ends in a hit, in waiting or in leading. -/
theorem turn_of_asks {t t' : Traffic κ ε} {m : Move κ ε} {id : CallId} {key : κ} {first : Bool}
    (hasks : t.Asks m id key first)
    (hbecame : t.Became t' id
      ⟨key, Admission.phase t.now (t.cache.consult t.now id first key).1⟩
      (t.cache.consult t.now id first key).2) : Turn t t' m := by
  rcases t.cache.consult_cases t.now id first key with
    ⟨value, hpeek, hconsult⟩ | ⟨leader, hpeek, hleader, hconsult⟩ | ⟨hpeek, hleader, hconsult⟩
  · rw [hconsult] at hbecame
    exact .hit hasks hpeek hbecame
  · rw [hconsult] at hbecame
    exact .attach hasks hpeek hleader hbecame
  · rw [hconsult] at hbecame
    exact .lead hasks hpeek hleader hbecame

theorem step_turn (t : Traffic κ ε) (m : Move κ ε) : Turn t (t.step m) m := by
  cases m with
  | get key => exact turn_of_asks (.first key) (became_begin t key)
  | answer id result =>
    simp only [step]
    split
    · rename_i hcall
      exact .answer hcall (became_setPhase hcall _ _)
    · exact .idle rfl
  | expire id =>
    simp only [step]
    split
    · rename_i hcall
      split
      · rename_i htime
        exact .expire hcall htime (became_setPhase hcall _ _)
      · exact .idle rfl
    · exact .idle rfl
  | settle id =>
    simp only [step]
    split
    · rename_i hcall
      exact .settle hcall (became_setPhase hcall _ _)
    · exact .idle rfl
  | publish id =>
    simp only [step]
    split
    · rename_i hcall
      exact .publish hcall (became_setPhase hcall _ _)
    · exact .idle rfl
  | look id =>
    simp only [step]
    split
    · rename_i hcall
      split
      · rename_i hleader
        exact .receive hcall hleader (became_setPhase hcall _ _)
      · rename_i hleader
        exact turn_of_asks (.again hcall hleader) (became_retry hcall)
      · exact .idle rfl
    · exact .idle rfl
  | cancel id =>
    simp only [step]
    split
    · rename_i hcall
      exact .withdraw hcall (became_setPhase hcall _ _)
    · rename_i hcall
      exact .leave hcall (became_setPhase hcall _ _)
    · exact .idle rfl
  | close id =>
    simp only [step]
    split
    · rename_i hcall
      exact .close hcall (became_setPhase hcall _ _)
    · exact .idle rfl
  | invalidate key => exact .invalidate (fun _ => rfl) rfl rfl
  | clear => exact .clear (fun _ => rfl) rfl rfl
  | advance ms => exact .advance (fun _ => rfl) rfl rfl

/-- Whoever looks its key up becomes what the cache admits it to. -/
theorem Asks.became {t : Traffic κ ε} {m : Move κ ε} {id : CallId} {key : κ} {first : Bool}
    (h : t.Asks m id key first) :
    t.Became (t.step m) id ⟨key, Admission.phase t.now (t.cache.consult t.now id first key).1⟩
      (t.cache.consult t.now id first key).2 := by
  cases h with
  | first => exact became_begin t key
  | again hcall hleader =>
    have hstep : t.step (.look id) = t.retry id key := by simp only [step, hcall, hleader]
    rw [hstep]
    exact became_retry hcall

/-- Time passes by itself alone. -/
theorem now_step (t : Traffic κ ε) (m : Move κ ε) :
    (t.step m).now = t.now ∨ ∃ ms, m = .advance ms ∧ (t.step m).now = t.now + ms := by
  cases step_turn t m with
  | idle hsame => exact Or.inl (congrArg Traffic.now hsame)
  | hit _ _ hbecame | attach _ _ _ hbecame | lead _ _ _ hbecame | answer _ hbecame
  | expire _ _ hbecame | settle _ hbecame | publish _ hbecame | receive _ _ hbecame
  | withdraw _ hbecame | leave _ hbecame | close _ hbecame => exact Or.inl hbecame.now_eq
  | invalidate _ hnow | clear _ hnow => exact Or.inl hnow
  | advance _ hnow => exact Or.inr ⟨_, rfl, hnow⟩

theorem config_step (t : Traffic κ ε) (m : Move κ ε) :
    (t.step m).cache.config = t.cache.config := by
  cases step_turn t m with
  | idle hsame => rw [hsame]
  | hit _ _ hbecame | attach _ _ _ hbecame | lead _ _ _ hbecame | answer _ hbecame
  | expire _ _ hbecame | settle _ hbecame | publish _ hbecame | receive _ _ hbecame
  | withdraw _ hbecame | leave _ hbecame | close _ hbecame => simp [hbecame.cache_eq]
  | invalidate _ _ hcache | clear _ _ hcache | advance _ _ hcache =>
    simp [hcache, ReadCache.invalidate, ReadCache.clear]

/-- A move touches no get but the one that acts. -/
theorem call?_step_of_ne {t : Traffic κ ε} {m : Move κ ε} {other : CallId}
    (h : t.actor? m ≠ some other) : (t.step m).call? other = t.call? other := by
  cases step_turn t m with
  | idle hsame => rw [hsame]
  | hit hasks _ hbecame | attach hasks _ _ hbecame | lead hasks _ _ hbecame =>
    exact hbecame.other other fun heq => h (heq ▸ hasks.actor)
  | answer _ hbecame | expire _ _ hbecame | settle _ hbecame | publish _ hbecame
  | receive _ _ hbecame | withdraw _ hbecame | leave _ hbecame | close _ hbecame =>
    exact hbecame.other other fun heq => h (heq ▸ rfl)
  | invalidate hcalls | clear hcalls | advance hcalls => exact hcalls other

/-- A get that has begun is not forgotten. -/
theorem call?_eq_none_of_step {t : Traffic κ ε} {m : Move κ ε} {id : CallId}
    (h : (t.step m).call? id = none) : t.call? id = none := by
  by_cases hactor : t.actor? m = some id
  · cases step_turn t m with
    | idle hsame => rwa [hsame] at h
    | hit hasks _ hbecame | attach hasks _ _ hbecame | lead hasks _ _ hbecame =>
      obtain rfl := hasks.eq_of_actor hactor
      cases hbecame.self.symm.trans h
    | answer _ hbecame | expire _ _ hbecame | settle _ hbecame | publish _ hbecame
    | receive _ _ hbecame | withdraw _ hbecame | leave _ hbecame | close _ hbecame =>
      cases hactor
      cases hbecame.self.symm.trans h
    | invalidate | clear | advance => cases hactor
  · exact (call?_step_of_ne hactor).symm.trans h

@[simp] theorem run_nil (t : Traffic κ ε) : t.run [] = t := rfl

@[simp] theorem run_cons (t : Traffic κ ε) (m : Move κ ε) (moves : List (Move κ ε)) :
    t.run (m :: moves) = (t.step m).run moves := rfl

@[simp] theorem run_append (t : Traffic κ ε) (moves more : List (Move κ ε)) :
    t.run (moves ++ more) = (t.run moves).run more := List.foldl_append

theorem config_run (t : Traffic κ ε) (moves : List (Move κ ε)) :
    (t.run moves).cache.config = t.cache.config := by
  induction moves generalizing t with
  | nil => rfl
  | cons m rest ih => exact (ih (t.step m)).trans (config_step t m)

theorem call?_eq_none_of_run {t : Traffic κ ε} {moves : List (Move κ ε)} {id : CallId}
    (h : (t.run moves).call? id = none) : t.call? id = none := by
  induction moves generalizing t with
  | nil => exact h
  | cons m rest ih => exact call?_eq_none_of_step (ih h)

end Traffic

end KeyedBlocks
