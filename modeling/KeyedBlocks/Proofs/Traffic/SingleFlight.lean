import KeyedBlocks.Proofs.Traffic.History

/-!
At most one fetch for a key at a time, and none left over. A registered fetch stays registered until
its own leader ends it or somebody detaches it, so a second loader for the same key starts only
after the first fetch is over or detached; and a register without running gets is empty.
-/
namespace KeyedBlocks.Traffic

variable {κ ε : Type} [DecidableEq κ] [TimedOut κ ε]

/-- A registered fetch leaves the register only by an invalidation, a clearing, or because its own
leader ends it. -/
theorem registered_step {t : Traffic κ ε} (hwf : t.WellFormed) {m : Move κ ε} {key : κ}
    {id : CallId} (hmem : (key, id) ∈ t.cache.inflight) (hinv : m ≠ .invalidate key)
    (hclear : m ≠ .clear) :
    (key, id) ∈ (t.step m).cache.inflight ∨
      (t.actor? m = some id ∧ (t.step m).Ended id key) := by
  have hleads := hwf.leads key id hmem
  cases step_turn t m with
  | idle hsame =>
    rw [hsame]
    exact Or.inl hmem
  | hit _ _ hbecame | attach _ _ _ hbecame | answer _ hbecame | expire _ _ hbecame
  | publish _ hbecame | receive _ _ hbecame | leave _ hbecame | close _ hbecame =>
    rw [hbecame.cache_eq]
    exact Or.inl hmem
  | @lead _ actor other _ hasks hpeek hleader hbecame =>
    have hne : key ≠ other := by
      rintro rfl
      exact Assoc.find?_eq_none_iff.1 hleader id hmem
    rw [hbecame.cache_eq]
    exact Or.inl (Assoc.mem_insert.2 (Or.inr ⟨hne, hmem⟩))
  | @settle actor other _ _ hcall hbecame =>
    by_cases hid : id = actor
    · subst hid
      obtain rfl := PastWaiting.key_eq hcall hleads.pastWaiting
      exact Or.inr ⟨rfl, _, hbecame.self, rfl⟩
    · rw [hbecame.cache_eq, ReadCache.settle_inflight]
      exact Or.inl ((ReadCache.mem_withdraw_inflight hwf.keys_nodup).2
        ⟨hmem, fun h => hid h.2⟩)
  | @withdraw actor other _ _ hcall hbecame =>
    by_cases hid : id = actor
    · subst hid
      obtain rfl := PastWaiting.key_eq hcall hleads.pastWaiting
      exact Or.inr ⟨rfl, _, hbecame.self, rfl⟩
    · rw [hbecame.cache_eq]
      exact Or.inl ((ReadCache.mem_withdraw_inflight hwf.keys_nodup).2
        ⟨hmem, fun h => hid h.2⟩)
  | @invalidate other _ _ hcache =>
    have hne : key ≠ other := by
      rintro rfl
      exact hinv rfl
    rw [hcache]
    exact Or.inl (Assoc.mem_erase.2 ⟨hne, hmem⟩)
  | clear => exact absurd rfl hclear
  | advance _ _ hcache =>
    rw [hcache]
    exact Or.inl hmem

/-- A fetch that is over stays so. -/
theorem ended_step {t : Traffic κ ε} {id : CallId} {key : κ} (m : Move κ ε)
    (h : t.Ended id key) : (t.step m).Ended id key := by
  have hpast := h.pastWaiting
  obtain ⟨phase, hcall, hphase⟩ := h
  by_cases hactor : t.actor? m = some id
  · cases step_turn t m with
    | idle hsame =>
      rw [hsame]
      exact ⟨phase, hcall, hphase⟩
    | hit hasks | attach hasks | lead hasks =>
      obtain rfl := hasks.eq_of_actor hactor
      exact absurd hpast hasks.not_pastWaiting
    | answer hold | expire hold | settle hold | withdraw hold | receive hold | leave hold =>
      cases hactor
      cases hcall.symm.trans hold
      cases hphase
    | publish hold hbecame | close hold hbecame =>
      cases hactor
      cases hcall.symm.trans hold
      exact ⟨_, hbecame.self, rfl⟩
    | invalidate | clear | advance => cases hactor
  · exact ⟨phase, (call?_step_of_ne hactor).trans hcall, hphase⟩

theorem ended_run {t : Traffic κ ε} {id : CallId} {key : κ} (moves : List (Move κ ε))
    (h : t.Ended id key) : (t.run moves).Ended id key := by
  induction moves generalizing t with
  | nil => exact h
  | cons m rest ih => exact ih (ended_step m h)

/-- As long as nobody detaches it, a fetch is registered until it is over. -/
theorem registered_run {t : Traffic κ ε} (hwf : t.WellFormed) {moves : List (Move κ ε)} {key : κ}
    {id : CallId} (hmem : (key, id) ∈ t.cache.inflight) (hinv : .invalidate key ∉ moves)
    (hclear : .clear ∉ moves) :
    (key, id) ∈ (t.run moves).cache.inflight ∨ (t.run moves).Ended id key := by
  induction moves generalizing t with
  | nil => exact Or.inl hmem
  | cons m rest ih =>
    simp only [List.mem_cons, not_or] at hinv hclear
    rcases registered_step hwf hmem (Ne.symm hinv.1) (Ne.symm hclear.1) with hstay | ⟨_, hended⟩
    · exact ih (hwf.step m) hstay hinv.2 hclear.2
    · exact Or.inr (ended_run rest hended)

/-- Between two starts of loaders for one key, the earlier fetch ends or is detached. -/
theorem ended_or_detached {t : Traffic κ ε} (hwf : t.WellFormed) {m m' : Move κ ε}
    {between : List (Move κ ε)} {id id' : CallId} {key : κ}
    (hstart : t.loaderStart? m = some id) (hkey : (t.step m).LeadsFor id key)
    (hstart' : ((t.step m).run between).loaderStart? m' = some id')
    (hkey' : (((t.step m).run between).step m').LeadsFor id' key) :
    ((t.step m).run between).Ended id key ∨ .invalidate key ∈ between ∨ .clear ∈ between := by
  by_contra hnot
  simp only [not_or] at hnot
  obtain ⟨hended, hinv, hclear⟩ := hnot
  obtain ⟨k, _, _, _, _, hbecame⟩ := turn_of_loaderStart hstart
  obtain ⟨since, answer, hcall⟩ := hkey
  cases hbecame.self.symm.trans hcall
  have hmem : (key, id) ∈ (t.step m).cache.inflight := by
    rw [hbecame.cache_eq]
    exact Assoc.mem_insert.2 (Or.inl ⟨rfl, rfl⟩)
  obtain ⟨k', _, _, _, hleader, hbecame'⟩ := turn_of_loaderStart hstart'
  obtain ⟨since', answer', hcall'⟩ := hkey'
  cases hbecame'.self.symm.trans hcall'
  rcases registered_run (hwf.step m) hmem hinv hclear with hstay | hover
  · exact Assoc.find?_eq_none_iff.1 hleader id hstay
  · exact hended hover

/-- One fetch for a key at a time and none left over, in a run from `t`. -/
structure SingleFlight (t : Traffic κ ε) (moves : List (Move κ ε)) : Prop where
  /-- A registered fetch has exactly one leader, and that get is still running its loader. -/
  led : ∀ key id, (key, id) ∈ (t.run moves).cache.inflight →
    (t.run moves).LeadsFor id key ∧
      ∀ other, (key, other) ∈ (t.run moves).cache.inflight → other = id
  /-- No get leads the registered fetches of two keys. -/
  apart : ∀ key other id, (key, id) ∈ (t.run moves).cache.inflight →
    (other, id) ∈ (t.run moves).cache.inflight → key = other
  /-- A get starts its loader only when its look-up finds neither a live entry nor a fetch. -/
  cause : ∀ before m after id, moves = before ++ m :: after →
    (t.run before).loaderStart? m = some id →
    ∃ key first, (t.run before).Asks m id key first ∧
      (t.run before).cache.peek (t.run before).now key = none ∧
      (∀ leader, (key, leader) ∉ (t.run before).cache.inflight) ∧
      ((t.run before).step m).LeadsFor id key
  /-- Between two starts for one key the earlier fetch has ended, or somebody detached it. -/
  separate : ∀ before m between m' after id id' key,
    moves = before ++ m :: (between ++ m' :: after) →
    (t.run before).loaderStart? m = some id →
    ((t.run before).step m).LeadsFor id key →
    (((t.run before).step m).run between).loaderStart? m' = some id' →
    ((((t.run before).step m).run between).step m').LeadsFor id' key →
    (((t.run before).step m).run between).Ended id key ∨
      .invalidate key ∈ between ∨ .clear ∈ between
  /-- What a get does never takes the fetch of another get out of the register. -/
  own : ∀ before m after id, moves = before ++ m :: after →
    (t.run before).actor? m = some id →
    ∀ key other, other ≠ id → (key, other) ∈ (t.run before).cache.inflight →
      (key, other) ∈ ((t.run before).step m).cache.inflight
  /-- No get runs its loader more than once. -/
  once : (t.loaderStarts moves).Nodup
  counted : (t.run moves).cache.stats.loads = (t.loaderStarts moves).length
  /-- When all gets have returned or were cancelled, nothing is registered. -/
  no_leak : (∀ id key phase, (t.run moves).call? id = some ⟨key, phase⟩ → phase.isOver = true) →
    (t.run moves).cache.inflight = []

/-- Every run on a new cache keeps to one fetch for a key at a time and leaves none over. -/
theorem singleFlight_run (config : CacheConfig) (now : Nat) (moves : List (Move κ ε)) :
    SingleFlight (start (.create config) now) moves := by
  have hstart := start_wellFormed (κ := κ) (ε := ε) config now
  have hwf := hstart.run moves
  refine ⟨?led, fun _ _ _ => hwf.apart, ?cause, ?separate, ?own, loaderStarts_nodup _ _,
    ?counted, hwf.inflight_eq_nil⟩
  case led =>
    intro key id hmem
    refine ⟨hwf.leads key id hmem, fun other hother => ?_⟩
    have hsame := Assoc.find?_eq_some_of_mem hwf.keys_nodup hmem
    exact Option.some.inj ((Assoc.find?_eq_some_of_mem hwf.keys_nodup hother).symm.trans hsame)
  case cause =>
    rintro before m after id rfl hloader
    obtain ⟨key, first, hasks, hpeek, hleader, hbecame⟩ := turn_of_loaderStart hloader
    exact ⟨key, first, hasks, hpeek, Assoc.find?_eq_none_iff.1 hleader, _, _, hbecame.self⟩
  case separate =>
    rintro before m between m' after id id' key rfl hloader hkey hloader' hkey'
    exact ended_or_detached (hstart.run before) hloader hkey hloader' hkey'
  case own =>
    rintro before m after id rfl hactor key other hne hmem
    have hinv : m ≠ .invalidate key := by
      rintro rfl
      cases hactor
    have hclear : m ≠ .clear := by
      rintro rfl
      cases hactor
    rcases registered_step (hstart.run before) hmem hinv hclear with hstay | ⟨hself, _⟩
    · exact hstay
    · exact absurd (Option.some.inj (hself.symm.trans hactor)) hne
  case counted =>
    rw [loads_run]
    exact Nat.zero_add _

end KeyedBlocks.Traffic
