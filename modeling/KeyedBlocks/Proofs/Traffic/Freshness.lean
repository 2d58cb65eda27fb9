import KeyedBlocks.Proofs.Traffic.Origin

/-!
How fresh the values are that a read cache serves. Each comes from a loader that gave it for the
same key, and within the time allowed if the timer is prompt; a value from an entry comes from a
fetch that ended less than the time to live ago; and whoever asks after an invalidation gets nothing
that was fetched before it.
-/
namespace KeyedBlocks.Traffic

variable {κ ε : Type} [DecidableEq κ] [TimedOut κ ε]

/-- The loader of a get for a key was started at some time of a run, and its answer was a value, the
first answer that it gave; with a prompt timer it gave it before the time allowed was over. -/
def Delivered (t : Traffic κ ε) (moves : List (Move κ ε)) (leader : CallId) (key : κ)
    (value : Bytes) : Prop :=
  ∃ earlier start between after,
    moves = earlier ++ start :: (between ++ .answer leader (.ok value) :: after) ∧
    (t.run earlier).loaderStart? start = some leader ∧
    (t.run (earlier ++ start :: between)).call? leader =
      some ⟨key, .leading (t.run earlier).now none⟩ ∧
    (t.Prompt (earlier ++ start :: between) leader →
      (t.run (earlier ++ start :: between)).now ≤
        (t.run earlier).now + t.cache.config.fetchTimeoutMs)

/-- At the end of a run a value is fresh for a key: it comes from a fetch of the key, whose loader
gave it and which ended less than the time to live ago. -/
def Fresh (t : Traffic κ ε) (moves : List (Move κ ε)) (key : κ) (value : Bytes) : Prop :=
  ∃ leader time, t.FilledBy moves key leader value time ∧ t.Delivered moves leader key value ∧
    time ≤ (t.run moves).now ∧ (t.run moves).now < time + t.cache.config.ttlMs

/-- A value that a fetch came to was given by its loader. -/
theorem Decided.delivered {t : Traffic κ ε} {moves : List (Move κ ε)} {leader : CallId} {key : κ}
    {value : Bytes} (hnew : t.call? leader = none) (h : t.Decided moves leader key (.ok value)) :
    t.Delivered moves leader key value := by
  obtain ⟨before, m, after, rfl, hdecides⟩ := h
  cases hdecides with
  | answer hcall =>
    have hidle : t.isLeading leader = false := by simp [isLeading, hnew]
    obtain ⟨earlier, start, between, rfl, hstart, rfl⟩ := started_of_leading hidle hcall
    refine ⟨earlier, start, between, after, by simp, hstart, hcall, fun hprompt => ?_⟩
    have hallowed := now_le_deadline hidle hprompt hcall
    rwa [deadline, config_run] at hallowed

section Started

variable {t : Traffic κ ε} (hforgotten : ∀ key, t.cache.Forgotten key)
  (hnew : ∀ id, t.call? id = none)
include hforgotten

/-- The fetch of a filled entry came to the value that it put into the cache. -/
theorem FilledBy.decided {moves : List (Move κ ε)} {key : κ} {leader : CallId} {value : Bytes}
    {time : Nat} (h : t.FilledBy moves key leader value time) :
    t.Decided moves leader key (.ok value) := by
  obtain ⟨before, after, rfl, ⟨⟨since, hcall⟩, hregistered, _⟩, _⟩ := h
  have hmem := Assoc.mem_of_find?_eq_some hregistered
  have hstarted := registered_started (hforgotten key).unregistered hmem
  exact (decided_of_result hstarted hcall rfl).append _

include hnew

/-- The source of a result is a fetch of the same key, which came to that result. -/
theorem Drawn.decided (hwf : t.WellFormed) {moves : List (Move κ ε)} {id leader : CallId} {key : κ}
    {result : Except ε Bytes} (h : t.Drawn moves id key leader result) :
    t.Decided moves leader key result := by
  obtain ⟨before, m, after, rfl, _, hsource⟩ := h
  apply Decided.append
  cases hsource with
  | own hcall =>
    have hstarted := led_started (hnew _) hcall rfl
    exact decided_of_result hstarted hcall rfl
  | shared hcall hleader =>
    have hstarted := waits_started (hforgotten key).unregistered
      (fun _ hsome => by simp [hnew] at hsome) hcall
    obtain rfl := PastWaiting.key_eq hleader ((hwf.run before).waits id key leader hcall)
    exact decided_of_result hstarted hleader rfl
  | held _ _ hfilled => exact hfilled.decided hforgotten

/-- What is shown of a key is fresh. -/
theorem fresh_of_peek {moves : List (Move κ ε)} {key : κ} {value : Bytes}
    (hpeek : (t.run moves).cache.peek (t.run moves).now key = some value) :
    t.Fresh moves key value := by
  obtain ⟨entry, hentry, rfl, hlive⟩ := Held.entry_of_peek hpeek
  have hnone : t.cache.held.find? key = none := (hforgotten key).find?_eq_none
  obtain ⟨leader, time, hfilled, hexpires, htime⟩ := entry_filledBy hnone hentry
  rw [hexpires] at hlive
  exact ⟨leader, time, hfilled, (hfilled.decided hforgotten).delivered (hnew leader), htime, hlive⟩

end Started

/-- While an entry is there, the fetch that it comes from was started since its key was last
forgotten. -/
theorem FilledBy.started_since {t : Traffic κ ε} {before after : List (Move κ ε)} {m : Move κ ε}
    {key : κ} {leader : CallId} {value : Bytes} {time : Nat} {entry : HeldValue}
    (hforgotten : (t.run (before ++ [m])).cache.Forgotten key)
    (hfilled : t.FilledBy (before ++ m :: after) key leader value time)
    (hentry : (t.run (before ++ m :: after)).cache.held.find? key = some entry) :
    leader ∈ (t.run (before ++ [m])).loaderStarts after := by
  have hshift : before ++ m :: after = (before ++ [m]) ++ after := by simp
  have hnone := hforgotten.find?_eq_none
  rw [hshift, run_append] at hentry
  obtain ⟨actual, date, hsince, _⟩ := entry_filledBy hnone hentry
  obtain ⟨first, rest, rfl, hfills, hdate, hlast⟩ := hsince
  -- The entry comes from a fetch that has ended since, and from one fetch only.
  have hactual : t.FilledBy (before ++ m :: (first ++ .settle actual :: rest)) key actual
      entry.value date := by
    refine ⟨before ++ m :: first, rest, by simp, ?_, ?_, ?_⟩
    · simpa using hfills
    · simpa using hdate
    · intro earlier other later new hsplit
      simpa using hlast earlier other later new hsplit
  obtain rfl := hfilled.unique hactual
  have hmem := Assoc.mem_of_find?_eq_some hfills.registered
  have hstarted := registered_started hforgotten.unregistered hmem
  rw [loaderStarts_append]
  exact List.mem_append_left _ hstarted

/-- A get that begins after its key was forgotten has its result from a fetch started since. -/
theorem Drawn.started_since {t : Traffic κ ε} {before after : List (Move κ ε)} {m : Move κ ε}
    {id leader : CallId} {key : κ} {result : Except ε Bytes}
    (hforgotten : (t.run (before ++ [m])).cache.Forgotten key)
    (hnew : (t.run (before ++ [m])).call? id = none)
    (hdrawn : t.Drawn (before ++ m :: after) id key leader result) :
    leader ∈ (t.run (before ++ [m])).loaderStarts after := by
  obtain ⟨earlier, move, later, hsplit, hreturns, hsource⟩ := hdrawn
  -- The get has not begun by then, so it returns its result afterwards.
  obtain ⟨mid, rfl, rfl⟩ : ∃ mid, earlier = before ++ m :: mid ∧ after = mid ++ move :: later := by
    rcases split_cases hsplit with ⟨rfl, rfl, _⟩ | hbehind | ⟨mid, rfl, _⟩
    · rw [run_append] at hnew
      cases hnew.symm.trans hreturns
    · exact hbehind
    · have hearly : (t.run (earlier ++ [move])).call? id = none := by
        have hmore : earlier ++ move :: mid ++ [m] = (earlier ++ [move]) ++ (mid ++ [m]) := by simp
        rw [hmore, run_append] at hnew
        exact call?_eq_none_of_run hnew
      rw [run_append] at hearly
      cases hearly.symm.trans hreturns
  have hrun : t.run (before ++ m :: mid) = (t.run (before ++ [m])).run mid := by
    rw [← run_append]
    simp
  rw [loaderStarts_append]
  apply List.mem_append_left
  cases hsource with
  | own hcall =>
    rw [hrun] at hcall
    exact led_started hnew hcall rfl
  | shared hcall _ =>
    rw [hrun] at hcall
    exact waits_started hforgotten.unregistered
      (fun _ hsome => by cases hnew.symm.trans hsome) hcall
  | held _ hpeek hfilled =>
    obtain ⟨entry, hentry, _⟩ := Held.entry_of_peek hpeek
    exact hfilled.started_since hforgotten hentry

/-- Where the values of a run come from and how fresh they are, in a run from `t`. -/
structure Freshness (t : Traffic κ ε) (moves : List (Move κ ε)) : Prop where
  /-- A value that a get returns has a source: a fetch of the same key, whose loader gave just that
  value, and within the time allowed if the timer is prompt. -/
  returned : ∀ id key value, (t.run moves).call? id = some ⟨key, .returned (.ok value)⟩ →
    ∃ leader, t.Drawn moves id key leader (.ok value) ∧ t.Delivered moves leader key value
  /-- No get has two sources. -/
  source : ∀ id key leader key' leader' result result', t.Drawn moves id key leader result →
    t.Drawn moves id key' leader' result' → leader = leader'
  /-- What is shown of a key is fresh. -/
  shown : ∀ key value, (t.run moves).cache.peek (t.run moves).now key = some value →
    t.Fresh moves key value
  /-- What a get is served from an entry is fresh at the moment of its look-up. -/
  served : ∀ before m after id key first value, moves = before ++ m :: after →
    (t.run before).Asks m id key first →
    ((t.run before).step m).call? id = some ⟨key, .returned (.ok value)⟩ →
    t.Fresh before key value
  /-- Every entry, expired or not, holds the value of a fetch that succeeded. -/
  successes : ∀ key entry, (t.run moves).cache.held.find? key = some entry →
    ∃ leader time, t.FilledBy moves key leader entry.value time ∧
      t.Delivered moves leader key entry.value ∧ entry.expiresAt = time + t.cache.config.ttlMs
  /-- A fetch that ends with an error, or because the time was over, leaves all entries alone. -/
  failures : ∀ before leader after key since e, moves = before ++ .settle leader :: after →
    (t.run before).call? leader = some ⟨key, .leading since (some (.error e))⟩ →
    ((t.run before).step (.settle leader)).cache.held = (t.run before).cache.held
  /-- A get that begins after its key was invalidated, or all were cleared, has its result from a
  fetch whose loader was started afterwards and not before. -/
  renewed : ∀ before m after id key leader result, moves = before ++ m :: after →
    m = .invalidate key ∨ m = .clear → (t.run (before ++ [m])).call? id = none →
    t.Drawn moves id key leader result →
    leader ∈ (t.run (before ++ [m])).loaderStarts after ∧ leader ∉ t.loaderStarts (before ++ [m])

/-- What a new cache serves in any run is fresh. -/
theorem freshness_run (config : CacheConfig) (now : Nat) (moves : List (Move κ ε)) :
    Freshness (start (.create config) now) moves := by
  have hwf := start_wellFormed (κ := κ) (ε := ε) config now
  have hforgotten : ∀ key, (start (κ := κ) (ε := ε) (.create config) now).cache.Forgotten key :=
    ReadCache.create_forgotten config
  have hnew : ∀ id, (start (κ := κ) (ε := ε) (.create config) now).call? id = none :=
    fun id => by simp [start, call?]
  have hnone : ∀ key, (start (κ := κ) (ε := ε) (.create config) now).cache.held.find? key = none :=
    fun key => (hforgotten key).find?_eq_none
  refine ⟨?returned, fun _ _ _ _ _ _ _ => Drawn.unique, fun _ _ => fresh_of_peek hforgotten hnew,
    ?served, ?successes, ?failures, ?renewed⟩
  case returned =>
    intro id key value hcall
    obtain ⟨leader, hdrawn⟩ := drawn_of_returned (hnone key) (hnew id) hcall
    exact ⟨leader, hdrawn, (hdrawn.decided hforgotten hnew hwf).delivered (hnew leader)⟩
  case served =>
    rintro before m after id key first value rfl hasks hreturns
    exact fresh_of_peek hforgotten hnew (hasks.shown hreturns)
  case successes =>
    intro key entry hentry
    obtain ⟨leader, time, hfilled, hexpires, _⟩ := entry_filledBy (hnone key) hentry
    have hdecided := hfilled.decided hforgotten
    exact ⟨leader, time, hfilled, hdecided.delivered (hnew leader), hexpires⟩
  case failures =>
    rintro before leader after key since e rfl hcall
    exact held_settle_error hcall
  case renewed =>
    rintro before m after id key leader result rfl hm hunbegun hdrawn
    have hgone : ((start (.create config) now).run (before ++ [m])).cache.Forgotten key := by
      rw [run_append]
      rcases hm with rfl | rfl
      · exact ReadCache.invalidate_forgotten _ key
      · exact ReadCache.clear_forgotten _ key
    have hsince := hdrawn.started_since hgone hunbegun
    refine ⟨hsince, fun hbefore => ?_⟩
    have honce := loaderStarts_nodup (start (κ := κ) (ε := ε) (.create config) now)
      ((before ++ [m]) ++ after)
    rw [loaderStarts_append] at honce
    exact (List.nodup_append.1 honce).2.2 leader hbefore leader hsince rfl

end KeyedBlocks.Traffic
