import KeyedBlocks.Proofs.Traffic.Turns

/-!
The register of fetches in a run. Every registered fetch is led by a get that is still running its
loader for that key, no key is registered twice, and a get that waits does so for one that is past
waiting itself. Each move preserves this, so it holds at every moment of every run.
-/
namespace KeyedBlocks.Traffic

variable {κ ε : Type}

def LeadsFor (t : Traffic κ ε) (id : CallId) (key : κ) : Prop :=
  ∃ since answer, t.call? id = some ⟨key, .leading since answer⟩

def PastWaiting (t : Traffic κ ε) (id : CallId) (key : κ) : Prop :=
  ∃ phase, t.call? id = some ⟨key, phase⟩ ∧ phase.isWaiting = false

structure WellFormed (t : Traffic κ ε) : Prop where
  keys_nodup : (t.cache.inflight.map Prod.fst).Nodup
  leads : ∀ key id, (key, id) ∈ t.cache.inflight → t.LeadsFor id key
  waits : ∀ id key leader, t.call? id = some ⟨key, .waiting leader⟩ → t.PastWaiting leader key

theorem LeadsFor.pastWaiting {t : Traffic κ ε} {id : CallId} {key : κ} (h : t.LeadsFor id key) :
    t.PastWaiting id key := by
  obtain ⟨since, answer, hcall⟩ := h
  exact ⟨_, hcall, rfl⟩

theorem Asks.not_pastWaiting {t : Traffic κ ε} {m : Move κ ε} {id : CallId} {key other : κ}
    {first : Bool} (h : t.Asks m id key first) : ¬ t.PastWaiting id other := by
  rintro ⟨phase, hcall, hphase⟩
  cases h with
  | first key => simp [call?] at hcall
  | again hwait _ =>
    rw [hwait] at hcall
    cases hcall
    exact absurd hphase (by simp [Phase.isWaiting])

theorem Became.leadsFor {t t' : Traffic κ ε} {id other : CallId} {call : Call κ ε}
    {cache : ReadCache κ} {key : κ} (h : t.Became t' id call cache) (hne : other ≠ id)
    (hleads : t.LeadsFor other key) : t'.LeadsFor other key := by
  obtain ⟨since, answer, hcall⟩ := hleads
  exact ⟨since, answer, (h.other other hne).trans hcall⟩

/-- A get that has become something other than waiting, with its old key, keeps others past
waiting. -/
theorem Became.pastWaiting {t t' : Traffic κ ε} {id other : CallId} {key new : κ}
    {phase : Phase ε} {cache : ReadCache κ} (h : t.Became t' id ⟨new, phase⟩ cache)
    (hphase : phase.isWaiting = false) (hkey : ∀ k, t.PastWaiting id k → k = new)
    (hpast : t.PastWaiting other key) : t'.PastWaiting other key := by
  by_cases hid : other = id
  · subst hid
    obtain rfl := hkey key hpast
    exact ⟨phase, h.self, hphase⟩
  · obtain ⟨old, hcall, hold⟩ := hpast
    exact ⟨old, (h.other other hid).trans hcall, hold⟩

theorem PastWaiting.key_eq {t : Traffic κ ε} {id : CallId} {key other : κ} {phase : Phase ε}
    (hcall : t.call? id = some ⟨key, phase⟩) (h : t.PastWaiting id other) : other = key := by
  obtain ⟨old, hold, _⟩ := h
  rw [hcall] at hold
  cases hold
  rfl

theorem PastWaiting.ne_of_waiting {t : Traffic κ ε} {id leader other : CallId} {key key' : κ}
    (h : t.PastWaiting leader key') (hwait : t.call? id = some ⟨key, .waiting other⟩) :
    leader ≠ id := by
  rintro rfl
  obtain ⟨phase, hcall, hphase⟩ := h
  cases hwait.symm.trans hcall
  cases hphase

theorem start_wellFormed (config : CacheConfig) (now : Nat) :
    (start (κ := κ) (ε := ε) (.create config) now).WellFormed where
  keys_nodup := List.nodup_nil
  leads _ _ hmem := absurd hmem List.not_mem_nil
  waits _ _ _ hcall := by simp [start, call?] at hcall

theorem WellFormed.apart {t : Traffic κ ε} (h : t.WellFormed) {key other : κ} {id : CallId}
    (hkey : (key, id) ∈ t.cache.inflight) (hother : (other, id) ∈ t.cache.inflight) :
    key = other := by
  obtain ⟨_, _, hcall⟩ := h.leads other id hother
  exact PastWaiting.key_eq hcall (h.leads key id hkey).pastWaiting

theorem WellFormed.inflight_eq_nil {t : Traffic κ ε} (h : t.WellFormed)
    (hover : ∀ id key phase, t.call? id = some ⟨key, phase⟩ → phase.isOver = true) :
    t.cache.inflight = [] := by
  apply List.eq_nil_iff_forall_not_mem.2
  rintro ⟨key, id⟩ hmem
  obtain ⟨since, answer, hcall⟩ := h.leads key id hmem
  cases hover id key _ hcall

variable [DecidableEq κ] [TimedOut κ ε]

/-- No get goes back to waiting. -/
theorem pastWaiting_step {t : Traffic κ ε} {id : CallId} {key : κ} (m : Move κ ε)
    (h : t.PastWaiting id key) : (t.step m).PastWaiting id key := by
  cases step_turn t m with
  | idle hsame => rwa [hsame]
  | hit hasks _ hbecame | attach hasks _ _ hbecame | lead hasks _ _ hbecame =>
    have hne : id ≠ _ := fun heq => hasks.not_pastWaiting (heq ▸ h)
    obtain ⟨phase, hcall, hphase⟩ := h
    exact ⟨phase, (hbecame.other id hne).trans hcall, hphase⟩
  | answer hcall hbecame | expire hcall _ hbecame | settle hcall hbecame
  | publish hcall hbecame | receive hcall _ hbecame | withdraw hcall hbecame
  | leave hcall hbecame | close hcall hbecame =>
    exact hbecame.pastWaiting rfl (fun _ => PastWaiting.key_eq hcall) h
  | invalidate hcalls | clear hcalls | advance hcalls =>
    obtain ⟨phase, hcall, hphase⟩ := h
    exact ⟨phase, (hcalls id).trans hcall, hphase⟩

theorem pastWaiting_run {t : Traffic κ ε} {id : CallId} {key : κ} (moves : List (Move κ ε))
    (h : t.PastWaiting id key) : (t.run moves).PastWaiting id key := by
  induction moves generalizing t with
  | nil => exact h
  | cons m rest ih => exact ih (pastWaiting_step m h)

/-- A get that waits has done so before, or attaches itself to the registered fetch. -/
theorem waiting_of_step {t : Traffic κ ε} {m : Move κ ε} {id leader : CallId} {key : κ}
    (h : (t.step m).call? id = some ⟨key, .waiting leader⟩) :
    t.call? id = some ⟨key, .waiting leader⟩ ∨ t.cache.leader? key = some leader := by
  by_cases hactor : t.actor? m = some id
  · cases step_turn t m with
    | idle hsame => exact Or.inl (hsame ▸ h)
    | attach hasks _ hleader hbecame =>
      obtain rfl := hasks.eq_of_actor hactor
      cases hbecame.self.symm.trans h
      exact Or.inr hleader
    | hit hasks _ hbecame | lead hasks _ _ hbecame =>
      obtain rfl := hasks.eq_of_actor hactor
      cases hbecame.self.symm.trans h
    | answer _ hbecame | expire _ _ hbecame | settle _ hbecame | publish _ hbecame
    | receive _ _ hbecame | withdraw _ hbecame | leave _ hbecame | close _ hbecame =>
      cases hactor
      cases hbecame.self.symm.trans h
    | invalidate | clear | advance => cases hactor
  · exact Or.inl ((call?_step_of_ne hactor).symm.trans h)

theorem keys_nodup_step {t : Traffic κ ε} (m : Move κ ε)
    (h : (t.cache.inflight.map Prod.fst).Nodup) :
    ((t.step m).cache.inflight.map Prod.fst).Nodup := by
  cases step_turn t m with
  | idle hsame => rwa [hsame]
  | lead _ _ _ hbecame =>
    rw [hbecame.cache_eq]
    exact Assoc.insert_keys_nodup _ _ h
  | settle _ hbecame =>
    rw [hbecame.cache_eq, ReadCache.settle_inflight]
    exact ReadCache.withdraw_keys_nodup h _ _
  | withdraw _ hbecame =>
    rw [hbecame.cache_eq]
    exact ReadCache.withdraw_keys_nodup h _ _
  | hit _ _ hbecame | attach _ _ _ hbecame | answer _ hbecame | expire _ _ hbecame
  | publish _ hbecame | receive _ _ hbecame | leave _ hbecame | close _ hbecame =>
    rw [hbecame.cache_eq]
    exact h
  | invalidate _ _ hcache =>
    rw [hcache]
    exact Assoc.erase_keys_nodup _ h
  | clear _ _ hcache =>
    rw [hcache]
    exact List.nodup_nil
  | advance _ _ hcache =>
    rw [hcache]
    exact h

theorem leads_step {t : Traffic κ ε} (m : Move κ ε) (h : t.WellFormed) {key : κ} {id : CallId}
    (hmem : (key, id) ∈ (t.step m).cache.inflight) : (t.step m).LeadsFor id key := by
  cases step_turn t m with
  | idle hsame =>
    rw [hsame] at hmem ⊢
    exact h.leads key id hmem
  | hit hasks _ hbecame | attach hasks _ _ hbecame =>
    rw [hbecame.cache_eq] at hmem
    have hleads := h.leads key id hmem
    exact hbecame.leadsFor (fun heq => hasks.not_pastWaiting (heq ▸ hleads.pastWaiting)) hleads
  | @lead _ actor _ _ hasks _ _ hbecame =>
    rw [hbecame.cache_eq] at hmem
    rcases Assoc.mem_insert.1 hmem with ⟨rfl, rfl⟩ | ⟨_, hold⟩
    · exact ⟨_, _, hbecame.self⟩
    · have hleads := h.leads key id hold
      exact hbecame.leadsFor (fun heq => hasks.not_pastWaiting (heq ▸ hleads.pastWaiting)) hleads
  | @answer actor _ _ _ hcall hbecame | @expire actor _ _ hcall _ hbecame =>
    rw [hbecame.cache_eq] at hmem
    have hleads := h.leads key id hmem
    by_cases hid : id = actor
    · subst hid
      obtain rfl := PastWaiting.key_eq hcall hleads.pastWaiting
      exact ⟨_, _, hbecame.self⟩
    · exact hbecame.leadsFor hid hleads
  | @settle actor _ _ _ hcall hbecame =>
    rw [hbecame.cache_eq, ReadCache.settle_inflight] at hmem
    obtain ⟨hold, hnot⟩ := (ReadCache.mem_withdraw_inflight h.keys_nodup).1 hmem
    have hleads := h.leads key id hold
    exact hbecame.leadsFor
      (fun heq => hnot ⟨PastWaiting.key_eq hcall (heq ▸ hleads.pastWaiting), heq⟩) hleads
  | @withdraw actor _ _ _ hcall hbecame =>
    rw [hbecame.cache_eq] at hmem
    obtain ⟨hold, hnot⟩ := (ReadCache.mem_withdraw_inflight h.keys_nodup).1 hmem
    have hleads := h.leads key id hold
    exact hbecame.leadsFor
      (fun heq => hnot ⟨PastWaiting.key_eq hcall (heq ▸ hleads.pastWaiting), heq⟩) hleads
  | @publish actor _ _ hcall hbecame | @receive actor _ _ _ _ hcall _ hbecame
  | @leave actor _ _ hcall hbecame | @close actor _ hcall hbecame =>
    rw [hbecame.cache_eq] at hmem
    have hleads := h.leads key id hmem
    refine hbecame.leadsFor ?_ hleads
    rintro rfl
    obtain ⟨since, answer, hold⟩ := hleads
    rw [hcall] at hold
    cases hold
  | invalidate hcalls _ hcache =>
    rw [hcache] at hmem
    obtain ⟨since, answer, hcall⟩ := h.leads key id (Assoc.mem_erase.1 hmem).2
    exact ⟨since, answer, (hcalls id).trans hcall⟩
  | clear _ _ hcache =>
    rw [hcache] at hmem
    exact absurd hmem (List.not_mem_nil)
  | advance hcalls _ hcache =>
    rw [hcache] at hmem
    obtain ⟨since, answer, hcall⟩ := h.leads key id hmem
    exact ⟨since, answer, (hcalls id).trans hcall⟩

theorem WellFormed.step {t : Traffic κ ε} (h : t.WellFormed) (m : Move κ ε) :
    (t.step m).WellFormed where
  keys_nodup := keys_nodup_step m h.keys_nodup
  leads _ _ hmem := leads_step m h hmem
  waits id key leader hcall := by
    apply pastWaiting_step m
    rcases waiting_of_step hcall with hold | hleader
    · exact h.waits id key leader hold
    · exact (h.leads key leader (Assoc.mem_of_find?_eq_some hleader)).pastWaiting

theorem WellFormed.run {t : Traffic κ ε} (h : t.WellFormed) (moves : List (Move κ ε)) :
    (t.run moves).WellFormed := by
  induction moves generalizing t with
  | nil => exact h
  | cons m rest ih => exact ih (h.step m)

end KeyedBlocks.Traffic
