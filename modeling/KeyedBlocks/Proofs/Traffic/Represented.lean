import KeyedBlocks.Proofs.Cache.Accesses
import KeyedBlocks.Proofs.Traffic.Origin

/-!
The values that a read cache holds, at any moment of any run. The entries and the record of their
uses belong together one to one, the bytes are counted right and stay below what is allowed, and a
key whose fetch is registered has no entry, so that what the fetch brings never replaces one. Each
move makes at most one access to the held values, and every access preserves this.
-/
namespace KeyedBlocks

namespace ReadCache

variable {κ ε : Type} [DecidableEq κ]

theorem consult_held (c : ReadCache κ) (now : Nat) (call : CallId) (first : Bool) (key : κ) :
    (c.consult now call first key).2.held = (c.held.lookup now key).2 := by
  rcases c.consult_cases now call first key with
    ⟨_, _, hconsult⟩ | ⟨_, _, _, hconsult⟩ | ⟨_, _, hconsult⟩
  all_goals rw [hconsult]

/-- The end of a fetch holds its value if it is the registered one and the value is short enough. -/
theorem settle_held (c : ReadCache κ) (now : Nat) (call : CallId) (key : κ) (value : Bytes) :
    (c.settle now call key (.ok value : Except ε Bytes)).held =
      if c.leader? key = some call ∧ value.length ≤ c.config.maxBytes then
        (c.held.insert key value (now + c.config.ttlMs) c.config.maxBytes).2
      else c.held := by
  unfold settle
  by_cases hleader : c.leader? key = some call
  · by_cases hshort : value.length ≤ c.config.maxBytes
    · simp only [hleader, hshort, hold, withdraw_config, withdraw_held, Nat.not_lt.2 hshort,
        and_self, if_true, if_false]
    · simp only [hleader, hshort, hold, withdraw_config, withdraw_held, Nat.not_le.1 hshort,
        and_false, if_true, if_false]
  · simp only [hleader, false_and, if_false]

/-- No key has both an entry and a registered fetch. -/
def Apart (c : ReadCache κ) : Prop :=
  ∀ key call, c.leader? key = some call → c.held.find? key = none

theorem Apart.lookup {c : ReadCache κ} (h : c.Apart) (now : Nat) (key : κ) :
    Apart { c with held := (c.held.lookup now key).2 } := by
  intro other call hleader
  refine Option.eq_none_iff_forall_ne_some.2 fun entry hentry => ?_
  obtain ⟨old, hold, _⟩ := c.held.lookup_within now key other entry hentry
  cases (h other call hleader).symm.trans hold

/-- A look-up without a result leaves no entry of its key, not even one that has expired. -/
theorem find?_of_missed {c : ReadCache κ} {now : Nat} {key : κ} (hpeek : c.peek now key = none) :
    (c.held.lookup now key).2.find? key = none := by
  unfold peek Held.peek at hpeek
  unfold Held.lookup
  cases hfind : c.held.find? key with
  | none => exact hfind
  | some entry =>
    by_cases hlive : now < entry.expiresAt
    · simp [hfind, hlive] at hpeek
    · simp only [Nat.not_lt.1 hlive, if_true, Held.find?_remove]

theorem Apart.withdraw {c : ReadCache κ} (h : c.Apart) (call : CallId) (key : κ) :
    (c.withdraw call key).Apart := by
  intro other leader hleader
  rw [withdraw_held]
  refine h other leader ?_
  unfold ReadCache.leader? at hleader ⊢
  rw [withdraw_inflight] at hleader
  split at hleader
  · by_cases heq : other = key
    · rw [heq, Assoc.find?_erase_self] at hleader
      cases hleader
    · rwa [Assoc.find?_erase_of_ne heq] at hleader
  · exact hleader

end ReadCache

namespace Traffic

variable {κ ε : Type} [DecidableEq κ] [TimedOut κ ε]

def access? (t : Traffic κ ε) : Move κ ε → Option (Held.Access κ)
  | .get key => some (.lookup t.now key)
  | .look id =>
      match t.call? id with
      | some ⟨key, .waiting leader⟩ =>
          match t.call? leader with
          | some ⟨_, .cancelled⟩ => some (.lookup t.now key)
          | _ => none
      | _ => none
  | .settle id =>
      match t.call? id with
      | some ⟨key, .leading _ (some (.ok value))⟩ =>
          if t.cache.leader? key = some id ∧ value.length ≤ t.cache.config.maxBytes then
            some (.hold key value (t.now + t.cache.config.ttlMs) t.cache.config.maxBytes)
          else none
      | _ => none
  | .invalidate key => some (.remove key)
  | .clear => some .clear
  | .answer .. | .expire _ | .publish _ | .cancel _ | .close _ | .advance _ => none

/-- A move does to the held values what its access does, and nothing without one. -/
theorem held_step (t : Traffic κ ε) (m : Move κ ε) :
    (t.step m).cache.held = (t.access? m).elim t.cache.held t.cache.held.access := by
  cases m with
  | get key => exact t.cache.consult_held t.now t.calls.length true key
  | look id =>
    simp only [step, access?]
    cases hcall : t.call? id with
    | none => rfl
    | some call =>
      obtain ⟨key, phase⟩ := call
      cases phase with
      | waiting leader =>
        simp only
        cases hleader : t.call? leader with
        | none => rfl
        | some call =>
          obtain ⟨other, phase⟩ := call
          cases phase with
          | cancelled => exact t.cache.consult_held t.now id false key
          | returned | leading | settled | withdrawn | waiting => rfl
      | leading | settled | withdrawn | returned | cancelled => rfl
  | settle id =>
    simp only [step, access?]
    cases hcall : t.call? id with
    | none => rfl
    | some call =>
      obtain ⟨key, phase⟩ := call
      cases phase with
      | leading since answer =>
        rcases answer with _ | e | value
        · rfl
        · exact t.cache.settle_error_held t.now id key e
        · show (t.cache.settle t.now id key (.ok value : Except ε Bytes)).held = _
          rw [ReadCache.settle_held]
          by_cases hholds : t.cache.leader? key = some id ∧
              value.length ≤ t.cache.config.maxBytes
          · simp only [if_pos hholds]
            rfl
          · simp only [if_neg hholds]
            rfl
      | settled | withdrawn | waiting | returned | cancelled => rfl
  | expire =>
    simp only [step]
    split
    · split <;> rfl
    · rfl
  | cancel =>
    simp only [step]
    split
    · exact t.cache.withdraw_held _ _
    · rfl
    · rfl
  | answer | publish | close =>
    simp only [step]
    split <;> rfl
  | invalidate key => rfl
  | clear => rfl
  | advance ms => rfl

omit [TimedOut κ ε] in
/-- Room is only ever made for a value that fits. -/
theorem within_of_access {t : Traffic κ ε} {m : Move κ ε} {a : Held.Access κ}
    (h : t.access? m = some a) : a.Within t.cache.config.maxBytes := by
  unfold access? at h
  split at h
  case h_1 | h_4 | h_5 => cases h; trivial
  case h_2 =>
    split at h
    · split at h
      · cases h
        trivial
      · cases h
    · cases h
  case h_3 =>
    split at h
    · split at h
      · rename_i hholds
        cases h
        exact ⟨rfl, hholds.2⟩
      · cases h
    · cases h
  all_goals cases h

omit [TimedOut κ ε] in
/-- A value is held only at the end of the registered fetch of its key. -/
theorem registered_of_hold {t : Traffic κ ε} {m : Move κ ε} {key : κ} {value : Bytes}
    {expiresAt limit : Nat} (h : t.access? m = some (.hold key value expiresAt limit)) :
    ∃ id, t.cache.leader? key = some id := by
  unfold access? at h
  split at h
  case h_2 =>
    split at h
    · split at h <;> cases h
    · cases h
  case h_3 id =>
    split at h
    · split at h
      · rename_i hholds
        cases h
        exact ⟨id, hholds.1⟩
      · cases h
    · cases h
  all_goals cases h

/-- What holds its values properly, and keeps entries and fetches apart. -/
structure Tidy (t : Traffic κ ε) : Prop where
  sound : t.cache.held.Sound t.cache.config.maxBytes
  apart : t.cache.Apart

theorem apart_step {t : Traffic κ ε} (h : t.cache.Apart) (m : Move κ ε) :
    (t.step m).cache.Apart := by
  cases step_turn t m with
  | idle hsame => rwa [hsame]
  | hit _ _ hbecame | attach _ _ _ hbecame =>
    rw [hbecame.cache_eq]
    exact h.lookup t.now _
  | @lead _ id key _ _ hpeek _ hbecame =>
    rw [hbecame.cache_eq]
    intro other leader hleader
    by_cases heq : other = key
    · subst heq
      exact ReadCache.find?_of_missed hpeek
    · refine h.lookup t.now key other leader ?_
      exact (Assoc.find?_insert_of_ne heq id _).symm.trans hleader
  | @settle id key _ result _ hbecame =>
    rw [hbecame.cache_eq]
    intro other leader hleader
    have hwithdrawn : (t.cache.withdraw id key).leader? other = some leader := by
      rwa [ReadCache.leader?, ReadCache.settle_inflight] at hleader
    refine Option.eq_none_iff_forall_ne_some.2 fun entry hentry => ?_
    rcases ReadCache.entry_of_settle hentry with ⟨rfl, hregistered, _⟩ | ⟨old, hold, _⟩
    · rw [ReadCache.leader?, ReadCache.withdraw_inflight, if_pos hregistered,
        Assoc.find?_erase_self] at hwithdrawn
      cases hwithdrawn
    · have hnone := h.withdraw id key other leader hwithdrawn
      rw [ReadCache.withdraw_held] at hnone
      cases hnone.symm.trans hold
  | withdraw _ hbecame =>
    rw [hbecame.cache_eq]
    exact h.withdraw _ _
  | answer _ hbecame | expire _ _ hbecame | publish _ hbecame | receive _ _ hbecame
  | leave _ hbecame | close _ hbecame =>
    rw [hbecame.cache_eq]
    exact h
  | @invalidate key _ _ hcache =>
    rw [hcache]
    intro other leader hleader
    show (t.cache.held.remove key).find? other = none
    rw [Held.find?_remove]
    split
    · rfl
    · rename_i hne
      exact h other leader ((Assoc.find?_erase_of_ne hne _).symm.trans hleader)
  | clear _ _ hcache =>
    rw [hcache]
    intro _ _ _
    rfl
  | advance _ _ hcache =>
    rw [hcache]
    exact h

theorem sound_step {t : Traffic κ ε} (h : t.cache.held.Sound t.cache.config.maxBytes)
    (m : Move κ ε) : (t.step m).cache.held.Sound (t.step m).cache.config.maxBytes := by
  rw [held_step, config_step]
  cases haccess : t.access? m with
  | none => exact h
  | some a => exact (h.access (within_of_access haccess)).1

theorem Tidy.step {t : Traffic κ ε} (h : t.Tidy) (m : Move κ ε) : (t.step m).Tidy :=
  ⟨sound_step h.sound m, apart_step h.apart m⟩

theorem Tidy.run {t : Traffic κ ε} (h : t.Tidy) (moves : List (Move κ ε)) :
    (t.run moves).Tidy := by
  induction moves generalizing t with
  | nil => exact h
  | cons m rest ih => exact ih (h.step m)

omit [TimedOut κ ε] in
theorem start_tidy (config : CacheConfig) (now : Nat) :
    (start (κ := κ) (ε := ε) (.create config) now).Tidy where
  sound := Held.sound_empty config.maxBytes
  apart _ _ _ := rfl

/-- How the values are held that a cache holds, and what the next move may do to them. -/
structure Represented (t : Traffic κ ε) : Prop where
  /-- A stamp is on record with a key just if the entry of that key has it. -/
  uses : ∀ stamp key, (stamp, key) ∈ t.cache.held.recency.order ↔
    ∃ entry, t.cache.held.find? key = some entry ∧ entry.stamp = stamp
  entry_keys : (t.cache.held.entries.map Prod.fst).Nodup
  use_keys : t.cache.held.recency.keys.Nodup
  use_stamps : (t.cache.held.recency.order.map Prod.fst).Pairwise (· < ·)
  bounded : ∀ use ∈ t.cache.held.recency.order, use.1 ≤ t.cache.held.recency.lastStamp
  counted : t.cache.held.bytes =
    (t.cache.held.entries.map fun entry => entry.2.value.length).sum
  limited : t.cache.held.bytes ≤ t.cache.config.maxBytes
  /-- No key has both an entry and a registered fetch. -/
  apart : ∀ key id, t.cache.leader? key = some id → t.cache.held.find? key = none
  /-- No move takes off more bytes than there are. -/
  checked : ∀ m a, t.access? m = some a →
    t.cache.held.checkedAccess a = some (t.step m).cache.held
  /-- No move replaces an entry by another one. -/
  fresh : ∀ m key value expiresAt limit,
    t.access? m = some (.hold key value expiresAt limit) → t.cache.held.find? key = none

theorem Tidy.represented {t : Traffic κ ε} (h : t.Tidy) : t.Represented := by
  obtain ⟨rows, hrows, hbytes⟩ := h.sound
  refine ⟨?uses, ?entry_keys, ?use_keys, ?use_stamps, ?bounded, ?counted, hbytes, h.apart,
    ?checked, ?fresh⟩
  case uses => exact fun stamp key => hrows.mem_order
  case entry_keys => exact (hrows.entries.map Prod.fst).nodup_iff.2 hrows.keys
  case use_keys => exact hrows.recency_keys ▸ hrows.keys
  case use_stamps =>
    rw [hrows.order, List.map_map, List.pairwise_map]
    exact hrows.stamps
  case bounded =>
    rw [hrows.order]
    intro use huse
    obtain ⟨row, hrow, rfl⟩ := List.mem_map.1 huse
    exact hrows.bounded row hrow
  case counted =>
    rw [hrows.counted]
    exact ((hrows.entries.map _).sum_nat).symm
  case checked =>
    intro m a haccess
    rw [(h.sound.access (within_of_access haccess)).2, held_step, haccess]
    rfl
  case fresh =>
    intro m key value expiresAt limit haccess
    obtain ⟨id, hleader⟩ := registered_of_hold haccess
    exact h.apart key id hleader

/-- At every moment of every run on a new cache, its values are held as they should be. -/
theorem represented_run (config : CacheConfig) (now : Nat) (moves : List (Move κ ε)) :
    ((start (.create config) now).run moves).Represented :=
  ((start_tidy config now).run moves).represented

end Traffic

end KeyedBlocks
