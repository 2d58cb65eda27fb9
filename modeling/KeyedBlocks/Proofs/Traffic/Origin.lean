import KeyedBlocks.Proofs.Places
import KeyedBlocks.Proofs.Traffic.Agreement

/-!
Which fetch a value comes from. An entry comes from the last fetch of its key that ended while it
was registered, with a value that the cache could hold; it expires when the time to live has passed
since then, however often it is used. A get has its result from the fetch that it led, from the one
that it waited for, or from the one that the entry it found comes from.
-/
namespace KeyedBlocks

namespace Traffic

variable {κ ε : Type}

/-- Whoever looks its key up looks up one key. -/
theorem Asks.key_eq {t : Traffic κ ε} {m : Move κ ε} {id : CallId} {key key' : κ}
    {first first' : Bool} (h : t.Asks m id key first) (h' : t.Asks m id key' first') :
    key = key' := by
  cases h with
  | first =>
    cases h'
    rfl
  | again hcall _ =>
    cases h' with
    | again hcall' _ =>
      cases hcall.symm.trans hcall'
      rfl

/-- Whoever looks its key up has no result to receive. -/
theorem Asks.not_receives {t : Traffic κ ε} {m : Move κ ε} {id leader : CallId} {key key' other : κ}
    {first : Bool} {result : Except ε Bytes} (h : t.Asks m id key first)
    (hcall : t.call? id = some ⟨key', .waiting leader⟩) :
    t.call? leader ≠ some ⟨other, .returned result⟩ := by
  intro hleader
  cases h with
  | first => simp [call?] at hcall
  | again hsame hcancelled =>
    cases hcall.symm.trans hsame
    cases hleader.symm.trans hcancelled

variable [DecidableEq κ] [TimedOut κ ε]

/-- The clock does not go back. -/
theorem now_le_step (t : Traffic κ ε) (m : Move κ ε) : t.now ≤ (t.step m).now := by
  rcases now_step t m with hsame | ⟨ms, rfl, hlater⟩
  · exact Nat.le_of_eq hsame.symm
  · rw [hlater]
    exact Nat.le_add_right ..

/-- By ending now, the fetch of a get puts a value into the cache: its loader gave the value, the
fetch is registered, and the value is short enough to be held. -/
structure Fills (t : Traffic κ ε) (leader : CallId) (key : κ) (value : Bytes) : Prop where
  answered : ∃ since, t.call? leader = some ⟨key, .leading since (some (.ok value))⟩
  registered : t.cache.leader? key = some leader
  short : value.length ≤ t.cache.config.maxBytes

/-- The entry of a key, if it has one, comes from the fetch of `leader`, which put `value` into the
cache at `time`; no fetch of the key has put one there since. -/
def FilledBy (t : Traffic κ ε) (moves : List (Move κ ε)) (key : κ) (leader : CallId)
    (value : Bytes) (time : Nat) : Prop :=
  ∃ before after, moves = before ++ .settle leader :: after ∧
    (t.run before).Fills leader key value ∧ (t.run before).now = time ∧
    ∀ earlier other later new, after = earlier ++ .settle other :: later →
      ¬ (t.run (before ++ .settle leader :: earlier)).Fills other key new

theorem Fills.filledBy {t : Traffic κ ε} {moves : List (Move κ ε)} {leader : CallId} {key : κ}
    {value : Bytes} (h : (t.run moves).Fills leader key value) :
    t.FilledBy (moves ++ [.settle leader]) key leader value (t.run moves).now :=
  ⟨moves, [], rfl, h, rfl, fun earlier other later new hsplit => by simp at hsplit⟩

theorem FilledBy.concat {t : Traffic κ ε} {moves : List (Move κ ε)} {key : κ} {leader : CallId}
    {value : Bytes} {time : Nat} (h : t.FilledBy moves key leader value time) {m : Move κ ε}
    (hother : ∀ other new, m = .settle other → ¬ (t.run moves).Fills other key new) :
    t.FilledBy (moves ++ [m]) key leader value time := by
  obtain ⟨before, after, rfl, hfills, htime, hlast⟩ := h
  refine ⟨before, after ++ [m], by simp, hfills, htime, ?_⟩
  intro earlier other later new hsplit
  rcases split_concat_cases hsplit with ⟨rfl, rfl, _⟩ | ⟨rest, _, hafter⟩
  · exact hother other new rfl
  · exact hlast earlier other rest new hafter

/-- There is one fetch that the entry of a key comes from. -/
theorem FilledBy.unique {t : Traffic κ ε} {moves : List (Move κ ε)} {key : κ}
    {leader leader' : CallId} {value value' : Bytes} {time time' : Nat}
    (h : t.FilledBy moves key leader value time)
    (h' : t.FilledBy moves key leader' value' time') : leader = leader' := by
  obtain ⟨before, after, rfl, hfills, _, hlast⟩ := h
  obtain ⟨before', after', hsplit, hfills', _, hlast'⟩ := h'
  rcases split_cases hsplit with ⟨_, hsame, _⟩ | ⟨mid, rfl, hafter⟩ | ⟨mid, rfl, hafter⟩
  · exact Move.settle.inj hsame
  · exact absurd hfills' (hlast mid leader' after' value' hafter)
  · exact absurd hfills (hlast' mid leader after value hafter)

/-- A fetch that puts a value into the cache leaves an entry with it that lives for its time. -/
theorem Fills.entry {t : Traffic κ ε} {leader : CallId} {key : κ} {value : Bytes}
    (h : t.Fills leader key value) :
    ∃ stamp, (t.step (.settle leader)).cache.held.find? key =
      some ⟨value, t.now + t.cache.config.ttlMs, stamp⟩ := by
  obtain ⟨since, hcall⟩ := h.answered
  simp only [step, hcall]
  exact ReadCache.find?_settle_self (ε := ε) h.registered h.short t.now

/-- A fetch that ends with an error leaves all entries alone. -/
theorem held_settle_error {t : Traffic κ ε} {leader : CallId} {key : κ} {since : Nat} {e : ε}
    (hcall : t.call? leader = some ⟨key, .leading since (some (.error e))⟩) :
    (t.step (.settle leader)).cache.held = t.cache.held := by
  simp only [step, hcall]
  exact ReadCache.settle_error_held t.cache t.now leader key e

/-- An entry after a move is left by a fetch that ends with the move, or was there before and has
kept its value and its time of expiry. -/
theorem entry_of_step {t : Traffic κ ε} {m : Move κ ε} {key : κ} {entry : HeldValue}
    (hentry : (t.step m).cache.held.find? key = some entry) :
    (∃ leader, m = .settle leader ∧ t.Fills leader key entry.value ∧
        entry.expiresAt = t.now + t.cache.config.ttlMs) ∨
      ((∃ old, t.cache.held.find? key = some old ∧ old.value = entry.value ∧
          old.expiresAt = entry.expiresAt) ∧
        ∀ other new, m = .settle other → ¬ t.Fills other key new) := by
  by_cases hfills : ∃ leader value, m = .settle leader ∧ t.Fills leader key value
  · obtain ⟨leader, value, rfl, hfills⟩ := hfills
    obtain ⟨stamp, hself⟩ := hfills.entry
    cases hentry.symm.trans hself
    exact Or.inl ⟨leader, rfl, hfills, rfl⟩
  · refine Or.inr ⟨?_, fun other new hm hnew => hfills ⟨other, new, hm, hnew⟩⟩
    cases step_turn t m with
    | idle hsame =>
      rw [hsame] at hentry
      exact ⟨entry, hentry, rfl, rfl⟩
    | hit _ _ hbecame | attach _ _ _ hbecame | lead _ _ _ hbecame =>
      rw [hbecame.cache_eq] at hentry
      exact Held.lookup_within _ _ _ key entry hentry
    | settle hcall hbecame =>
      rw [hbecame.cache_eq] at hentry
      rcases ReadCache.entry_of_settle hentry with ⟨rfl, hleader, value, rfl, hshort⟩ | hold
      · exact absurd ⟨_, value, rfl, ⟨_, hcall⟩, hleader, hshort⟩ hfills
      · exact hold
    | answer _ hbecame | expire _ _ hbecame | publish _ hbecame | receive _ _ hbecame
    | leave _ hbecame | close _ hbecame =>
      rw [hbecame.cache_eq] at hentry
      exact ⟨entry, hentry, rfl, rfl⟩
    | withdraw _ hbecame =>
      rw [hbecame.cache_eq, ReadCache.withdraw_held] at hentry
      exact ⟨entry, hentry, rfl, rfl⟩
    | invalidate _ _ hcache =>
      rw [hcache] at hentry
      exact Held.remove_within _ _ key entry hentry
    | clear _ _ hcache =>
      rw [hcache] at hentry
      cases hentry
    | advance _ _ hcache =>
      rw [hcache] at hentry
      exact ⟨entry, hentry, rfl, rfl⟩

/-- In a run that begins with nothing held for a key, its entry comes from a fetch of the run and
expires when the time to live has passed since that fetch ended. -/
theorem entry_filledBy {t : Traffic κ ε} {moves : List (Move κ ε)} {key : κ} {entry : HeldValue}
    (hnone : t.cache.held.find? key = none)
    (hentry : (t.run moves).cache.held.find? key = some entry) :
    ∃ leader time, t.FilledBy moves key leader entry.value time ∧
      entry.expiresAt = time + t.cache.config.ttlMs ∧ time ≤ (t.run moves).now := by
  induction moves using List.reverseRecOn generalizing entry with
  | nil => cases hnone.symm.trans hentry
  | append_singleton moves m ih =>
    have hclock : (t.run moves).now ≤ (t.run (moves ++ [m])).now := by
      rw [run_append]
      exact now_le_step _ m
    rw [run_append] at hentry
    rcases entry_of_step hentry with
      ⟨leader, rfl, hfills, hexpires⟩ | ⟨⟨old, hold, hvalue, hdate⟩, hother⟩
    · rw [config_run] at hexpires
      exact ⟨leader, _, hfills.filledBy, hexpires, hclock⟩
    · obtain ⟨leader, time, hfilled, hexpires, htime⟩ := ih hold
      rw [hvalue] at hfilled
      exact ⟨leader, time, hfilled.concat hother, hdate.symm.trans hexpires,
        Nat.le_trans htime hclock⟩

/-- A get that is served by a look-up is served what is shown of its key. -/
theorem Asks.shown {t : Traffic κ ε} {m : Move κ ε} {id : CallId} {key : κ} {first : Bool}
    {value : Bytes} (h : t.Asks m id key first)
    (hreturns : (t.step m).call? id = some ⟨key, .returned (.ok value)⟩) :
    t.cache.peek t.now key = some value := by
  rcases returned_of_step hreturns with
    hold | ⟨shown, _, _, hpeek, hresult⟩ | hsettled | ⟨leader, other, hwait, hleader⟩
  · exact absurd ⟨_, hold, rfl⟩ h.not_pastWaiting
  · cases hresult
    exact hpeek
  · exact absurd ⟨_, hsettled, rfl⟩ h.not_pastWaiting
  · exact absurd hleader (h.not_receives hwait)

/-- What can be the source of the result that a get for `key` returns by the move `m`. -/
inductive Source (t : Traffic κ ε) (moves : List (Move κ ε)) (m : Move κ ε) (id : CallId)
    (key : κ) : CallId → Except ε Bytes → Prop
  /-- The get has led the fetch itself. -/
  | own {result : Except ε Bytes} (hcall : (t.run moves).call? id = some ⟨key, .settled result⟩) :
      Source t moves m id key id result
  /-- The get has waited for the fetch. -/
  | shared {leader : CallId} {other : κ} {result : Except ε Bytes}
      (hcall : (t.run moves).call? id = some ⟨key, .waiting leader⟩)
      (hleader : (t.run moves).call? leader = some ⟨other, .returned result⟩) :
      Source t moves m id key leader result
  /-- The get looks its key up and finds the entry that the fetch has left. -/
  | held {leader : CallId} {first : Bool} {value : Bytes} {time : Nat}
      (hasks : (t.run moves).Asks m id key first)
      (hpeek : (t.run moves).cache.peek (t.run moves).now key = some value)
      (hfilled : t.FilledBy moves key leader value time) :
      Source t moves m id key leader (.ok value)

/-- A get has returned a result in a run, and has it from the fetch of `leader`. -/
def Drawn (t : Traffic κ ε) (moves : List (Move κ ε)) (id : CallId) (key : κ) (leader : CallId)
    (result : Except ε Bytes) : Prop :=
  ∃ before m after, moves = before ++ m :: after ∧
    ((t.run before).step m).call? id = some ⟨key, .returned result⟩ ∧
    t.Source before m id key leader result

theorem Drawn.append {t : Traffic κ ε} {moves : List (Move κ ε)} {id leader : CallId} {key : κ}
    {result : Except ε Bytes} (h : t.Drawn moves id key leader result) (more : List (Move κ ε)) :
    t.Drawn (moves ++ more) id key leader result := by
  obtain ⟨before, m, after, rfl, hreturns, hsource⟩ := h
  exact ⟨before, m, after ++ more, by simp, hreturns, hsource⟩

/-- Every result that a get has returned has a source. -/
theorem drawn_of_returned {t : Traffic κ ε} {moves : List (Move κ ε)} {id : CallId} {key : κ}
    {result : Except ε Bytes} (hnone : t.cache.held.find? key = none) (hnew : t.call? id = none)
    (hcall : (t.run moves).call? id = some ⟨key, .returned result⟩) :
    ∃ leader, t.Drawn moves id key leader result := by
  induction moves using List.reverseRecOn with
  | nil => cases hnew.symm.trans hcall
  | append_singleton moves m ih =>
    rw [run_append] at hcall
    rcases returned_of_step hcall with
      hold | ⟨value, first, hasks, hpeek, rfl⟩ | hsettled | ⟨leader, other, hwait, hleader⟩
    · obtain ⟨leader, hdrawn⟩ := ih hold
      exact ⟨leader, hdrawn.append [m]⟩
    · obtain ⟨entry, hentry, rfl, _⟩ := Held.entry_of_peek hpeek
      obtain ⟨leader, time, hfilled, _⟩ := entry_filledBy hnone hentry
      exact ⟨leader, moves, m, [], rfl, hcall, .held hasks hpeek hfilled⟩
    · exact ⟨id, moves, m, [], rfl, hcall, .own hsettled⟩
    · exact ⟨leader, moves, m, [], rfl, hcall, .shared hwait hleader⟩

section Source

variable {t : Traffic κ ε} {moves : List (Move κ ε)} {m : Move κ ε} {id leader leader' : CallId}
  {key key' : κ} {result result' : Except ε Bytes}

/-- Who has a source for a result has not returned before. -/
theorem Source.unreturned (h : t.Source moves m id key leader result) :
    (t.run moves).call? id ≠ some ⟨key', .returned result'⟩ := by
  intro hreturned
  cases h with
  | own hcall => cases hcall.symm.trans hreturned
  | shared hcall _ => cases hcall.symm.trans hreturned
  | held hasks _ _ => exact hasks.not_pastWaiting ⟨_, hreturned, rfl⟩

/-- A get has one source at a time. -/
theorem Source.unique (h : t.Source moves m id key leader result)
    (h' : t.Source moves m id key' leader' result') : leader = leader' := by
  cases h with
  | own hcall =>
    cases h' with
    | own => rfl
    | shared hwait _ => cases hcall.symm.trans hwait
    | held hasks _ _ => exact absurd ⟨_, hcall, rfl⟩ hasks.not_pastWaiting
  | shared hwait hleader =>
    cases h' with
    | own hcall => cases hcall.symm.trans hwait
    | shared hsame _ =>
      cases hwait.symm.trans hsame
      rfl
    | held hasks _ _ => exact absurd hleader (hasks.not_receives hwait)
  | held hasks _ hfilled =>
    cases h' with
    | own hcall => exact absurd ⟨_, hcall, rfl⟩ hasks.not_pastWaiting
    | shared hwait hleader => exact absurd hleader (hasks.not_receives hwait)
    | held hsame _ hfilled' =>
      obtain rfl := hasks.key_eq hsame
      exact hfilled.unique hfilled'

/-- Nobody who has returned has a source for a result afterwards. -/
theorem Source.not_after {before mid : List (Move κ ε)} {move : Move κ ε}
    (hreturns : ((t.run before).step move).call? id = some ⟨key, .returned result⟩) :
    ¬ t.Source (before ++ move :: mid) m id key' leader' result' := by
  intro h
  have hkept : (t.run (before ++ move :: mid)).call? id = some ⟨key, .returned result⟩ := by
    rw [run_append, run_cons]
    exact over_run mid hreturns rfl
  exact h.unreturned hkept

/-- A get returns once, and from one source. -/
theorem Drawn.unique (h : t.Drawn moves id key leader result)
    (h' : t.Drawn moves id key' leader' result') : leader = leader' := by
  obtain ⟨before, move, after, rfl, hreturns, hsource⟩ := h
  obtain ⟨before', move', after', hsplit, hreturns', hsource'⟩ := h'
  rcases split_cases hsplit with ⟨rfl, rfl, _⟩ | ⟨mid, rfl, _⟩ | ⟨mid, rfl, _⟩
  · exact hsource.unique hsource'
  · exact absurd hsource' (Source.not_after hreturns)
  · exact absurd hsource (Source.not_after hreturns')

end Source

end Traffic

end KeyedBlocks
