import KeyedBlocks.Proofs.Cache.Entries
import KeyedBlocks.Proofs.Traffic.History

/-!
Where the values of a run come from. At a moment when a key has neither an entry nor a registered
fetch, all that was fetched for it before is out of reach for the gets that begin later. Whatever
is held for the key afterwards, and whatever those gets return, was decided by a fetch whose loader
was started after that moment.
-/
namespace KeyedBlocks

/-- The get has started its loader and has not told its result to anybody. -/
def Phase.hasLed {ε : Type} : Phase ε → Bool
  | .leading .. | .settled _ | .withdrawn => true
  | _ => false

/-- A key has neither an entry nor a registered fetch. -/
structure ReadCache.Forgotten {κ : Type} [DecidableEq κ] (c : ReadCache κ) (key : κ) : Prop where
  unheld : ∀ value, ¬ c.held.Holds key value
  unregistered : ∀ id, (key, id) ∉ c.inflight

namespace ReadCache

variable {κ : Type} [DecidableEq κ]

theorem Forgotten.find?_eq_none {c : ReadCache κ} {key : κ} (h : c.Forgotten key) :
    c.held.find? key = none := by
  apply Option.eq_none_iff_forall_ne_some.2
  intro entry hfind
  exact h.unheld entry.value ⟨entry, hfind, rfl⟩

theorem create_forgotten (config : CacheConfig) (key : κ) : (create config).Forgotten key where
  unheld value hholds := by
    obtain ⟨entry, hfind, _⟩ := hholds
    cases hfind
  unregistered _ := List.not_mem_nil

theorem invalidate_forgotten (c : ReadCache κ) (key : κ) : (c.invalidate key).Forgotten key where
  unheld _ hholds := (Held.holds_of_remove hholds).1 rfl
  unregistered _ hmem := (Assoc.mem_erase.1 hmem).1 rfl

theorem clear_forgotten (c : ReadCache κ) (key : κ) : c.clear.Forgotten key where
  unheld value hholds := by
    obtain ⟨entry, hfind, _⟩ := hholds
    cases hfind
  unregistered _ := List.not_mem_nil

end ReadCache

namespace Traffic

variable {κ ε : Type} [DecidableEq κ] [TimedOut κ ε]

/-- A fetch gets into the register only when its loader is started. -/
theorem registered_of_step {t : Traffic κ ε} {m : Move κ ε} {key : κ} {id : CallId}
    (hmem : (key, id) ∈ (t.step m).cache.inflight) :
    (key, id) ∈ t.cache.inflight ∨ t.loaderStart? m = some id := by
  cases step_turn t m with
  | idle hsame => exact Or.inl (hsame ▸ hmem)
  | lead hasks _ _ hbecame =>
    rw [hbecame.cache_eq] at hmem
    rcases Assoc.mem_insert.1 hmem with ⟨_, rfl⟩ | ⟨_, hold⟩
    · exact Or.inr (loaderStart?_of_lead hasks hbecame)
    · exact Or.inl hold
  | settle _ hbecame =>
    rw [hbecame.cache_eq, ReadCache.settle_inflight] at hmem
    exact Or.inl (ReadCache.mem_of_mem_withdraw hmem)
  | withdraw _ hbecame =>
    rw [hbecame.cache_eq] at hmem
    exact Or.inl (ReadCache.mem_of_mem_withdraw hmem)
  | hit _ _ hbecame | attach _ _ _ hbecame | answer _ hbecame | expire _ _ hbecame
  | publish _ hbecame | receive _ _ hbecame | leave _ hbecame | close _ hbecame =>
    rw [hbecame.cache_eq] at hmem
    exact Or.inl hmem
  | invalidate _ _ hcache =>
    rw [hcache] at hmem
    exact Or.inl (Assoc.mem_erase.1 hmem).2
  | clear _ _ hcache =>
    rw [hcache] at hmem
    exact absurd hmem List.not_mem_nil
  | advance _ _ hcache =>
    rw [hcache] at hmem
    exact Or.inl hmem

theorem registered_started {t : Traffic κ ε} {moves : List (Move κ ε)} {key : κ} {id : CallId}
    (hnone : ∀ id, (key, id) ∉ t.cache.inflight)
    (hmem : (key, id) ∈ (t.run moves).cache.inflight) : id ∈ t.loaderStarts moves := by
  induction moves using List.reverseRecOn with
  | nil => exact absurd hmem (hnone id)
  | append_singleton moves m ih =>
    rw [run_append] at hmem
    rcases registered_of_step hmem with hold | hstart
    · exact mem_loaderStarts_concat.2 (Or.inl (ih hold))
    · exact mem_loaderStarts_concat.2 (Or.inr hstart)

/-- A get that comes to wait does so for a fetch started since. -/
theorem waits_started {t : Traffic κ ε} {moves : List (Move κ ε)} {id leader : CallId} {key : κ}
    (hnone : ∀ id, (key, id) ∉ t.cache.inflight)
    (hnew : ∀ leader, t.call? id ≠ some ⟨key, .waiting leader⟩)
    (hcall : (t.run moves).call? id = some ⟨key, .waiting leader⟩) :
    leader ∈ t.loaderStarts moves := by
  induction moves using List.reverseRecOn with
  | nil => exact absurd hcall (hnew leader)
  | append_singleton moves m ih =>
    rw [run_append] at hcall
    apply mem_loaderStarts_concat.2
    rcases waiting_of_step hcall with hold | hleader
    · exact Or.inl (ih hold)
    · exact Or.inl (registered_started hnone (Assoc.mem_of_find?_eq_some hleader))

theorem hasLed_of_step {t : Traffic κ ε} {m : Move κ ε} {id : CallId} {key : κ} {phase : Phase ε}
    (hcall : (t.step m).call? id = some ⟨key, phase⟩) (hphase : phase.hasLed = true) :
    (∃ old, t.call? id = some ⟨key, old⟩ ∧ old.hasLed = true) ∨ t.loaderStart? m = some id := by
  by_cases hactor : t.actor? m = some id
  · cases step_turn t m with
    | idle hsame => exact Or.inl ⟨phase, hsame ▸ hcall, hphase⟩
    | lead hasks _ _ hbecame =>
      obtain rfl := hasks.eq_of_actor hactor
      exact Or.inr (loaderStart?_of_lead hasks hbecame)
    | hit hasks _ hbecame | attach hasks _ _ hbecame =>
      obtain rfl := hasks.eq_of_actor hactor
      cases hbecame.self.symm.trans hcall
      cases hphase
    | answer hold hbecame | expire hold _ hbecame | settle hold hbecame
    | withdraw hold hbecame =>
      cases hactor
      cases hbecame.self.symm.trans hcall
      exact Or.inl ⟨_, hold, rfl⟩
    | publish _ hbecame | receive _ _ hbecame | leave _ hbecame | close _ hbecame =>
      cases hactor
      cases hbecame.self.symm.trans hcall
      cases hphase
    | invalidate | clear | advance => cases hactor
  · exact Or.inl ⟨phase, (call?_step_of_ne hactor).symm.trans hcall, hphase⟩

/-- A get that has led since it began has started its loader since. -/
theorem led_started {t : Traffic κ ε} {moves : List (Move κ ε)} {id : CallId} {key : κ}
    {phase : Phase ε} (hnew : t.call? id = none)
    (hcall : (t.run moves).call? id = some ⟨key, phase⟩) (hphase : phase.hasLed = true) :
    id ∈ t.loaderStarts moves := by
  induction moves using List.reverseRecOn generalizing phase with
  | nil => cases hnew.symm.trans hcall
  | append_singleton moves m ih =>
    rw [run_append] at hcall
    apply mem_loaderStarts_concat.2
    rcases hasLed_of_step hcall hphase with ⟨old, hold, hled⟩ | hstart
    · exact Or.inl (ih hold hled)
    · exact Or.inr hstart

/-- A value comes to be held only when its own registered fetch ends. -/
theorem holds_of_step {t : Traffic κ ε} {m : Move κ ε} {key : κ} {value : Bytes}
    (h : (t.step m).cache.held.Holds key value) :
    t.cache.held.Holds key value ∨
      ∃ id since, t.call? id = some ⟨key, .leading since (some (.ok value))⟩ ∧
        (key, id) ∈ t.cache.inflight := by
  cases step_turn t m with
  | idle hsame => exact Or.inl (hsame ▸ h)
  | hit _ _ hbecame | attach _ _ _ hbecame | lead _ _ _ hbecame =>
    rw [hbecame.cache_eq] at h
    exact Or.inl (Held.holds_of_lookup h)
  | settle hcall hbecame =>
    rw [hbecame.cache_eq] at h
    rcases ReadCache.holds_of_settle h with ⟨rfl, rfl, hleader⟩ | hold
    · exact Or.inr ⟨_, _, hcall, Assoc.mem_of_find?_eq_some hleader⟩
    · exact Or.inl hold
  | answer _ hbecame | expire _ _ hbecame | publish _ hbecame | receive _ _ hbecame
  | leave _ hbecame | close _ hbecame =>
    rw [hbecame.cache_eq] at h
    exact Or.inl h
  | withdraw _ hbecame =>
    rw [hbecame.cache_eq, ReadCache.withdraw_held] at h
    exact Or.inl h
  | invalidate _ _ hcache =>
    rw [hcache] at h
    exact Or.inl (Held.holds_of_remove h).2
  | clear _ _ hcache =>
    rw [hcache] at h
    exact absurd h ((ReadCache.clear_forgotten _ _).unheld _)
  | advance _ _ hcache =>
    rw [hcache] at h
    exact Or.inl h

/-- A value held for a key is the answer of a loader started since the key was forgotten. -/
theorem held_started {t : Traffic κ ε} {moves : List (Move κ ε)} {key : κ} {value : Bytes}
    (hforgotten : t.cache.Forgotten key) (h : (t.run moves).cache.held.Holds key value) :
    ∃ leader ∈ t.loaderStarts moves, t.Decided moves leader key (.ok value) := by
  induction moves using List.reverseRecOn with
  | nil => exact absurd h (hforgotten.unheld value)
  | append_singleton moves m ih =>
    rw [run_append] at h
    rcases holds_of_step h with hold | ⟨leader, since, hcall, hmem⟩
    · obtain ⟨leader, hstarted, hdecided⟩ := ih hold
      exact ⟨leader, mem_loaderStarts_concat.2 (Or.inl hstarted), hdecided.append [m]⟩
    · have hstarted := registered_started hforgotten.unregistered hmem
      have hdecided := decided_of_result hstarted hcall rfl
      exact ⟨leader, mem_loaderStarts_concat.2 (Or.inl hstarted), hdecided.append [m]⟩

/-- A get returns what is held for its key, what it has fetched itself, or what the leader that it
waits for has returned. -/
theorem returned_of_step {t : Traffic κ ε} {m : Move κ ε} {id : CallId} {key : κ}
    {result : Except ε Bytes} (hcall : (t.step m).call? id = some ⟨key, .returned result⟩) :
    t.call? id = some ⟨key, .returned result⟩ ∨
      (∃ value first, t.Asks m id key first ∧ t.cache.peek t.now key = some value ∧
        result = .ok value) ∨
      t.call? id = some ⟨key, .settled result⟩ ∨
      ∃ leader other, t.call? id = some ⟨key, .waiting leader⟩ ∧
        t.call? leader = some ⟨other, .returned result⟩ := by
  by_cases hactor : t.actor? m = some id
  · cases step_turn t m with
    | idle hsame => exact Or.inl (hsame ▸ hcall)
    | hit hasks hpeek hbecame =>
      obtain rfl := hasks.eq_of_actor hactor
      cases hbecame.self.symm.trans hcall
      exact Or.inr (Or.inl ⟨_, _, hasks, hpeek, rfl⟩)
    | publish hold hbecame =>
      cases hactor
      cases hbecame.self.symm.trans hcall
      exact Or.inr (Or.inr (Or.inl hold))
    | receive hold hleader hbecame =>
      cases hactor
      cases hbecame.self.symm.trans hcall
      exact Or.inr (Or.inr (Or.inr ⟨_, _, hold, hleader⟩))
    | attach hasks _ _ hbecame | lead hasks _ _ hbecame =>
      obtain rfl := hasks.eq_of_actor hactor
      cases hbecame.self.symm.trans hcall
    | answer _ hbecame | expire _ _ hbecame | settle _ hbecame | withdraw _ hbecame
    | leave _ hbecame | close _ hbecame =>
      cases hactor
      cases hbecame.self.symm.trans hcall
    | invalidate | clear | advance => cases hactor
  · exact Or.inl ((call?_step_of_ne hactor).symm.trans hcall)

/-- What a get returns that begins after its key was forgotten was decided by a fetch of the key
whose loader was started since. -/
theorem returned_started {t : Traffic κ ε} (hwf : t.WellFormed) {moves : List (Move κ ε)}
    {id : CallId} {key : κ} {result : Except ε Bytes} (hforgotten : t.cache.Forgotten key)
    (hnew : t.call? id = none) (hcall : (t.run moves).call? id = some ⟨key, .returned result⟩) :
    ∃ leader ∈ t.loaderStarts moves, t.Decided moves leader key result := by
  induction moves using List.reverseRecOn with
  | nil => cases hnew.symm.trans hcall
  | append_singleton moves m ih =>
    have hlater : ∀ leader, leader ∈ t.loaderStarts moves ∧ t.Decided moves leader key result →
        ∃ leader ∈ t.loaderStarts (moves ++ [m]), t.Decided (moves ++ [m]) leader key result := by
      rintro leader ⟨hstarted, hdecided⟩
      exact ⟨leader, mem_loaderStarts_concat.2 (Or.inl hstarted), hdecided.append [m]⟩
    rw [run_append] at hcall
    rcases returned_of_step hcall with
      hold | ⟨value, first, _, hpeek, rfl⟩ | hsettled | ⟨leader, other, hwait, hleader⟩
    · obtain ⟨leader, hstarted⟩ := ih hold
      exact hlater leader hstarted
    · obtain ⟨leader, hstarted⟩ := held_started hforgotten (Held.holds_of_peek hpeek)
      exact hlater leader hstarted
    · have hstarted := led_started hnew hsettled rfl
      exact hlater id ⟨hstarted, decided_of_result hstarted hsettled rfl⟩
    · have hnone : ∀ leader, t.call? id ≠ some ⟨key, .waiting leader⟩ := by
        rintro leader hsome
        cases hnew.symm.trans hsome
      have hstarted := waits_started hforgotten.unregistered hnone hwait
      obtain rfl := PastWaiting.key_eq hleader ((hwf.run moves).waits id key leader hwait)
      exact hlater leader ⟨hstarted, decided_of_result hstarted hleader rfl⟩

end Traffic

end KeyedBlocks
