import KeyedBlocks.Proofs.Traffic.Agreement

/-!
How gets are counted. A look-up that finds a live entry counts as a hit, and the first look-up of a
get that finds none as a miss. So each get is counted once when it begins; but a get that waited and
has lost its leader is counted a second time if there is a live entry by then. Hits and misses add
up to the gets begun just if there is no such get.
-/
namespace KeyedBlocks

/-- A look-up of a get in the cache. -/
structure LookUp where
  id : CallId
  /-- The get has just begun. -/
  first : Bool
  /-- There is a live entry. -/
  found : Bool
  deriving DecidableEq

namespace LookUp

def isMiss (l : LookUp) : Bool := l.first && !l.found

def isCounted (l : LookUp) : Bool := l.first || l.found

/-- The get is counted although it was counted before. -/
def isLate (l : LookUp) : Bool := !l.first && l.found

theorem countP_add (ls : List LookUp) :
    ls.countP found + ls.countP isMiss = ls.countP first + ls.countP isLate := by
  induction ls with
  | nil => rfl
  | cons l rest ih =>
    obtain ⟨id, _ | _, _ | _⟩ := l <;> simp [isMiss, isLate] <;> omega

theorem count_counted (ls : List LookUp) (id : CallId) :
    ((ls.filter isCounted).map LookUp.id).count id =
      ((ls.filter first).map LookUp.id).count id + ((ls.filter isLate).map LookUp.id).count id := by
  induction ls with
  | nil => rfl
  | cons l rest ih =>
    obtain ⟨other, _ | _, _ | _⟩ := l <;>
      simp [isCounted, isLate, List.count_cons, ih] <;> omega

end LookUp

namespace ReadCache

variable {κ : Type} [DecidableEq κ]

/-- A look-up adds to the hits if there is a live entry, and else to the misses if it is the
first. -/
theorem consult_counts (c : ReadCache κ) (now : Nat) (call : CallId) (first : Bool) (key : κ) :
    let l : LookUp := ⟨call, first, (c.peek now key).isSome⟩
    (c.consult now call first key).2.stats.hits = c.stats.hits + [l].countP LookUp.found ∧
      (c.consult now call first key).2.stats.misses =
        c.stats.misses + [l].countP LookUp.isMiss := by
  rcases c.consult_cases now call first key with
    ⟨value, hpeek, hconsult⟩ | ⟨leader, hpeek, _, hconsult⟩ | ⟨hpeek, _, hconsult⟩
  all_goals
    rw [hconsult, hpeek]
    cases first <;> exact ⟨rfl, rfl⟩

end ReadCache

def Move.isGet {κ ε : Type} : Move κ ε → Bool
  | .get _ => true
  | _ => false

namespace Traffic

variable {κ ε : Type} [DecidableEq κ]

def lookUp? (t : Traffic κ ε) : Move κ ε → Option LookUp
  | .get key => some ⟨t.calls.length, true, (t.cache.peek t.now key).isSome⟩
  | .look id =>
      match t.call? id with
      | some ⟨key, .waiting leader⟩ =>
          match t.call? leader with
          | some ⟨_, .cancelled⟩ => some ⟨id, false, (t.cache.peek t.now key).isSome⟩
          | _ => none
      | _ => none
  | _ => none

theorem lookUp?_eq_some_iff {t : Traffic κ ε} {m : Move κ ε} {l : LookUp} :
    t.lookUp? m = some l ↔
      ∃ key, t.Asks m l.id key l.first ∧ (t.cache.peek t.now key).isSome = l.found := by
  constructor
  · intro h
    cases m with
    | get key =>
      cases h
      exact ⟨key, .first key, rfl⟩
    | look id =>
      simp only [lookUp?] at h
      split at h
      · rename_i hcall
        split at h
        · rename_i hleader
          cases h
          exact ⟨_, .again hcall hleader, rfl⟩
        · cases h
      · cases h
    | answer | expire | settle | publish | cancel | close | invalidate | clear | advance => cases h
  · obtain ⟨id, first, found⟩ := l
    rintro ⟨key, hasks, rfl⟩
    cases hasks with
    | first => rfl
    | again hcall hleader => simp only [lookUp?, hcall, hleader]

theorem lookUp?_of_asks {t : Traffic κ ε} {m : Move κ ε} {id : CallId} {key : κ} {first : Bool}
    (h : t.Asks m id key first) :
    t.lookUp? m = some ⟨id, first, (t.cache.peek t.now key).isSome⟩ :=
  lookUp?_eq_some_iff.2 ⟨key, h, rfl⟩

/-- The first look-ups are those of the gets in the order in which they begin. -/
theorem firsts_step (t : Traffic κ ε) (m : Move κ ε) :
    ((t.lookUp? m).toList.filter LookUp.first).map LookUp.id =
      List.range' t.calls.length ([m].countP Move.isGet) := by
  cases m with
  | get => rfl
  | look =>
    simp only [lookUp?]
    repeat' split
    all_goals rfl
  | answer | expire | settle | publish | cancel | close | invalidate | clear | advance => rfl

variable [TimedOut κ ε]

theorem became_of_asks {t : Traffic κ ε} {m : Move κ ε} {id : CallId} {key : κ} {first : Bool}
    (h : t.Asks m id key first) :
    t.Became (t.step m) id ⟨key, Admission.phase t.now (t.cache.consult t.now id first key).1⟩
      (t.cache.consult t.now id first key).2 := by
  cases h with
  | first => exact became_begin t key
  | again hcall hleader =>
    simp only [step, hcall, hleader]
    exact became_retry hcall

def lookUps (t : Traffic κ ε) : List (Move κ ε) → List LookUp
  | [] => []
  | m :: rest => (t.lookUp? m).toList ++ lookUps (t.step m) rest

def counted (t : Traffic κ ε) (moves : List (Move κ ε)) : List CallId :=
  ((t.lookUps moves).filter LookUp.isCounted).map LookUp.id

/-- The gets that are counted again in a run. -/
def lateHits (t : Traffic κ ε) (moves : List (Move κ ε)) : List CallId :=
  ((t.lookUps moves).filter LookUp.isLate).map LookUp.id

theorem lookUps_append (t : Traffic κ ε) (moves more : List (Move κ ε)) :
    t.lookUps (moves ++ more) = t.lookUps moves ++ (t.run moves).lookUps more := by
  induction moves generalizing t with
  | nil => rfl
  | cons m rest ih => simp [lookUps, ih]

theorem counts_step (t : Traffic κ ε) (m : Move κ ε) :
    (t.step m).cache.stats.hits =
        t.cache.stats.hits + (t.lookUp? m).toList.countP LookUp.found ∧
      (t.step m).cache.stats.misses =
        t.cache.stats.misses + (t.lookUp? m).toList.countP LookUp.isMiss := by
  cases hlook : t.lookUp? m with
  | some l =>
    -- A look-up is one critical section of the cache, whether it is the first of its get or not.
    obtain ⟨key, hasks, hfound⟩ := lookUp?_eq_some_iff.1 hlook
    have hcounts := t.cache.consult_counts t.now l.id l.first key
    rw [hfound] at hcounts
    rw [(became_of_asks hasks).cache_eq]
    exact hcounts
  | none =>
    cases step_turn t m with
    | hit hasks | attach hasks | lead hasks => cases (lookUp?_of_asks hasks).symm.trans hlook
    | idle hsame => simp [hsame]
    | @settle id key _ result _ hbecame =>
      obtain ⟨evictions, hstats⟩ := t.cache.settle_stats t.now id key result
      simp [hbecame.cache_eq, hstats]
    | answer _ hbecame | expire _ _ hbecame | publish _ hbecame | receive _ _ hbecame
    | withdraw _ hbecame | leave _ hbecame | close _ hbecame =>
      simp [hbecame.cache_eq]
    | invalidate _ _ hcache | clear _ _ hcache | advance _ _ hcache =>
      simp [hcache, ReadCache.invalidate, ReadCache.clear]

theorem counts_run (t : Traffic κ ε) (moves : List (Move κ ε)) :
    (t.run moves).cache.stats.hits =
        t.cache.stats.hits + (t.lookUps moves).countP LookUp.found ∧
      (t.run moves).cache.stats.misses =
        t.cache.stats.misses + (t.lookUps moves).countP LookUp.isMiss := by
  induction moves generalizing t with
  | nil => exact ⟨rfl, rfl⟩
  | cons m rest ih =>
    obtain ⟨hhits, hmisses⟩ := counts_step t m
    obtain ⟨hhits', hmisses'⟩ := ih (t.step m)
    simp only [run_cons, lookUps, List.countP_append]
    omega

theorem calls_length_step (t : Traffic κ ε) (m : Move κ ε) :
    (t.step m).calls.length = t.calls.length + [m].countP Move.isGet := by
  cases m with
  | get => simp [step, begin, Move.isGet]
  | invalidate | clear | advance => rfl
  | answer | expire | settle | publish | look | cancel | close =>
    simp only [step]
    repeat' split
    all_goals simp [setPhase, retry, Move.isGet]

theorem firsts_run (t : Traffic κ ε) (moves : List (Move κ ε)) :
    (t.run moves).calls.length = t.calls.length + moves.countP Move.isGet ∧
      ((t.lookUps moves).filter LookUp.first).map LookUp.id =
        List.range' t.calls.length (moves.countP Move.isGet) := by
  induction moves generalizing t with
  | nil => exact ⟨rfl, rfl⟩
  | cons m rest ih =>
    obtain ⟨hlength, hfirsts⟩ := ih (t.step m)
    rw [calls_length_step] at hlength hfirsts
    have hgets : (m :: rest).countP Move.isGet =
        [m].countP Move.isGet + rest.countP Move.isGet := by
      rw [← List.countP_append, List.singleton_append]
    constructor
    · rw [run_cons, hlength, hgets, Nat.add_assoc]
    · rw [lookUps, List.filter_append, List.map_append, firsts_step, hfirsts, hgets,
        List.range'_append_1]

theorem mem_lookUps_iff {t : Traffic κ ε} {moves : List (Move κ ε)} {l : LookUp} :
    l ∈ t.lookUps moves ↔
      ∃ before m after, moves = before ++ m :: after ∧ (t.run before).lookUp? m = some l := by
  constructor
  · intro h
    induction moves generalizing t with
    | nil => exact absurd h List.not_mem_nil
    | cons m rest ih =>
      rcases List.mem_append.1 h with hnow | hlater
      · exact ⟨[], m, rest, rfl, Option.mem_toList.1 hnow⟩
      · obtain ⟨before, m', after, rfl, hlook⟩ := ih hlater
        exact ⟨m :: before, m', after, rfl, hlook⟩
  · rintro ⟨before, m, after, rfl, hlook⟩
    simp [lookUps_append, lookUps, hlook]

/-- A get is counted again if it asks again and there is a live entry. -/
theorem mem_lateHits_iff {t : Traffic κ ε} {moves : List (Move κ ε)} {id : CallId} :
    id ∈ t.lateHits moves ↔
      ∃ before m after key value, moves = before ++ m :: after ∧
        (t.run before).Asks m id key false ∧
        (t.run before).cache.peek (t.run before).now key = some value := by
  constructor
  · intro h
    obtain ⟨⟨_, first, found⟩, hlate, rfl⟩ := List.mem_map.1 h
    obtain ⟨hmem, hlate⟩ := List.mem_filter.1 hlate
    obtain ⟨rfl, rfl⟩ : first = false ∧ found = true := by simpa [LookUp.isLate] using hlate
    obtain ⟨before, m, after, hmoves, hlook⟩ := mem_lookUps_iff.1 hmem
    obtain ⟨key, hasks, hfound⟩ := lookUp?_eq_some_iff.1 hlook
    obtain ⟨value, hpeek⟩ := Option.isSome_iff_exists.1 hfound
    exact ⟨before, m, after, key, value, hmoves, hasks, hpeek⟩
  · rintro ⟨before, m, after, key, value, hmoves, hasks, hpeek⟩
    have hlook := lookUp?_of_asks hasks
    rw [hpeek] at hlook
    have hmem := mem_lookUps_iff.2 ⟨before, m, after, hmoves, hlook⟩
    exact List.mem_map.2 ⟨_, List.mem_filter.2 ⟨hmem, rfl⟩, rfl⟩

/-- A get that waits has done so before, or has just begun with a miss. -/
theorem waited_of_step {t : Traffic κ ε} {m : Move κ ε} {id leader : CallId} {key : κ}
    (h : (t.step m).call? id = some ⟨key, .waiting leader⟩) :
    (∃ old, t.call? id = some ⟨key, .waiting old⟩) ∨ t.lookUp? m = some ⟨id, true, false⟩ := by
  by_cases hactor : t.actor? m = some id
  · cases step_turn t m with
    | idle hsame => exact Or.inl ⟨leader, hsame ▸ h⟩
    | attach hasks hpeek _ hbecame =>
      obtain rfl := hasks.eq_of_actor hactor
      cases hbecame.self.symm.trans h
      cases hasks with
      | first => exact Or.inr (by rw [lookUp?, hpeek]; rfl)
      | again hcall _ => exact Or.inl ⟨_, hcall⟩
    | hit hasks _ hbecame | lead hasks _ _ hbecame =>
      obtain rfl := hasks.eq_of_actor hactor
      cases hbecame.self.symm.trans h
    | answer _ hbecame | expire _ _ hbecame | settle _ hbecame | publish _ hbecame
    | receive _ _ hbecame | withdraw _ hbecame | leave _ hbecame | close _ hbecame =>
      cases hactor
      cases hbecame.self.symm.trans h
    | invalidate | clear | advance => cases hactor
  · exact Or.inl ⟨leader, (call?_step_of_ne hactor).symm.trans h⟩

/-- A get that waits has been counted as a miss. -/
theorem missed_of_waiting {t : Traffic κ ε} (hnew : ∀ id, t.call? id = none)
    {moves : List (Move κ ε)} {id leader : CallId} {key : κ}
    (hwait : (t.run moves).call? id = some ⟨key, .waiting leader⟩) :
    ⟨id, true, false⟩ ∈ t.lookUps moves := by
  -- A get that asks again may wait for another leader than before.
  induction moves using List.reverseRecOn generalizing leader with
  | nil => cases (hnew id).symm.trans hwait
  | append_singleton moves m ih =>
    rw [run_append] at hwait
    rw [lookUps_append]
    rcases waited_of_step hwait with ⟨old, hbefore⟩ | hlook
    · exact List.mem_append_left _ (ih hbefore)
    · exact List.mem_append_right _ (List.mem_append_left _ (Option.mem_toList.2 hlook))

/-- A get that finds a live entry returns it. -/
theorem pastWaiting_of_found {t : Traffic κ ε} {m : Move κ ε} {l : LookUp}
    (hlook : t.lookUp? m = some l) (hfound : l.found = true) :
    ∃ key, (t.step m).PastWaiting l.id key := by
  obtain ⟨key, hasks, hpeek⟩ := lookUp?_eq_some_iff.1 hlook
  rw [hfound] at hpeek
  have hbecame := became_of_asks hasks
  rcases t.cache.consult_cases t.now l.id l.first key with
    ⟨value, _, hconsult⟩ | ⟨_, hnone, _⟩ | ⟨hnone, _⟩
  · rw [hconsult] at hbecame
    exact ⟨key, _, hbecame.self, rfl⟩
  · simp [hnone] at hpeek
  · simp [hnone] at hpeek

theorem not_mem_lateHits {t : Traffic κ ε} {id : CallId} {key : κ} (h : t.PastWaiting id key)
    (moves : List (Move κ ε)) : id ∉ t.lateHits moves := by
  intro hlate
  obtain ⟨before, m, after, _, _, rfl, hasks, _⟩ := mem_lateHits_iff.1 hlate
  exact hasks.not_pastWaiting (pastWaiting_run before h)

/-- No get is counted again twice. -/
theorem lateHits_nodup (t : Traffic κ ε) (moves : List (Move κ ε)) : (t.lateHits moves).Nodup := by
  induction moves generalizing t with
  | nil => exact List.nodup_nil
  | cons m rest ih =>
    have hrest := ih (t.step m)
    cases hlook : t.lookUp? m with
    | none => simpa [lateHits, lookUps, hlook] using hrest
    | some l =>
      cases hlate : l.isLate with
      | false => simpa [lateHits, lookUps, hlook, hlate] using hrest
      | true =>
        have hfound : l.found = true := by
          simp only [LookUp.isLate, Bool.and_eq_true] at hlate
          exact hlate.2
        obtain ⟨key, hpast⟩ := pastWaiting_of_found hlook hfound
        have hcons : t.lateHits (m :: rest) = l.id :: (t.step m).lateHits rest := by
          simp [lateHits, lookUps, hlook, hlate]
        rw [hcons]
        exact List.nodup_cons.2 ⟨not_mem_lateHits hpast rest, hrest⟩

/-- A get that is counted again has waited for a get that was cancelled while it led. -/
theorem abandoned_of_late {t : Traffic κ ε} (hwf : t.WellFormed)
    (hnone : ∀ key id, (key, id) ∉ t.cache.inflight) (hnew : ∀ id, t.call? id = none)
    {moves : List (Move κ ε)} {id : CallId} (hlate : id ∈ t.lateHits moves) :
    ∃ before after key leader, moves = before ++ after ∧
      (t.run before).call? id = some ⟨key, .waiting leader⟩ ∧ t.Abandoned before leader key := by
  obtain ⟨before, m, after, key, _, hmoves, hasks, _⟩ := mem_lateHits_iff.1 hlate
  cases hasks with
  | again hwait hleader =>
    -- The leader had the same key, and a leader has started its loader, so it was cancelled then.
    obtain rfl := PastWaiting.key_eq hleader ((hwf.run before).waits id key _ hwait)
    have hstarted := waits_started (hnone key) (fun _ h => by simp [hnew] at h) hwait
    exact ⟨before, _, key, _, hmoves, hwait, abandoned_of_gone hstarted hleader rfl⟩

/-- How often the gets have been counted after a run from `t`. -/
structure Accounted (t : Traffic κ ε) (moves : List (Move κ ε)) : Prop where
  begun : (t.run moves).calls.length = moves.countP Move.isGet
  /-- The hits are the look-ups that find a live entry. -/
  hits : (t.run moves).cache.stats.hits = (t.lookUps moves).countP LookUp.found
  /-- The misses are the gets that find none when they begin. -/
  misses : (t.run moves).cache.stats.misses = (t.lookUps moves).countP LookUp.isMiss
  total : (t.run moves).cache.stats.hits + (t.run moves).cache.stats.misses =
    moves.countP Move.isGet + (t.lateHits moves).length
  /-- Each get begun is counted once, or twice if it is counted again. -/
  each : ∀ id, (t.counted moves).count id =
    (if id < moves.countP Move.isGet then 1 else 0) + if id ∈ t.lateHits moves then 1 else 0
  /-- A get is counted again if it asks again and by then there is a live entry. -/
  late : ∀ id, id ∈ t.lateHits moves ↔
    ∃ before m after key value, moves = before ++ m :: after ∧
      (t.run before).Asks m id key false ∧
      (t.run before).cache.peek (t.run before).now key = some value
  /-- It was a miss when it began, and has waited for a get that was cancelled while it led. -/
  cause : ∀ id ∈ t.lateHits moves, ⟨id, true, false⟩ ∈ t.lookUps moves ∧
    ∃ before after key leader, moves = before ++ after ∧
      (t.run before).call? id = some ⟨key, .waiting leader⟩ ∧ t.Abandoned before leader key
  /-- Without cancellations every get is counted once. -/
  uncancelled : (∀ id, .cancel id ∉ moves) → t.lateHits moves = []

/-- In every run on a new cache, hits and misses are as many as the gets begun and the gets that
are counted again. -/
theorem accounted_run (config : CacheConfig) (now : Nat) (moves : List (Move κ ε)) :
    Accounted (start (.create config) now) moves := by
  have hstart := start_wellFormed (κ := κ) (ε := ε) config now
  have hnone : ∀ (key : κ) id, (key, id) ∉ (start (ε := ε) (.create config) now).cache.inflight :=
    fun key => (ReadCache.create_forgotten config key).unregistered
  have hnew : ∀ id, (start (κ := κ) (ε := ε) (.create config) now).call? id = none :=
    fun id => by simp [start, call?]
  obtain ⟨hbegun, hfirsts⟩ := firsts_run (start (.create config) now) moves
  obtain ⟨hhits, hmisses⟩ := counts_run (start (.create config) now) moves
  have hnodup := lateHits_nodup (start (.create config) now) moves
  have hfew : (start (κ := κ) (ε := ε) (.create config) now).calls.length = 0 := rfl
  rw [hfew, Nat.zero_add] at hbegun
  rw [hfew] at hfirsts
  refine ⟨hbegun, hhits.trans (Nat.zero_add _), hmisses.trans (Nat.zero_add _), ?total, ?each,
    fun id => mem_lateHits_iff, ?cause, ?uncancelled⟩
  case total =>
    have hadd := LookUp.countP_add ((start (.create config) now).lookUps moves)
    have hlength := congrArg List.length hfirsts
    rw [List.length_map, List.length_range', ← List.countP_eq_length_filter] at hlength
    rw [hlength] at hadd
    rw [hhits, hmisses, lateHits, List.length_map, ← List.countP_eq_length_filter, ← hadd]
    exact congrArg₂ (· + ·) (Nat.zero_add _) (Nat.zero_add _)
  case each =>
    intro id
    rw [counted, LookUp.count_counted, hfirsts, ← List.range_eq_range', List.count_range,
      ← lateHits, hnodup.count]
  case cause =>
    intro id hlate
    obtain ⟨before, after, key, leader, rfl, hwait, hgone⟩ :=
      abandoned_of_late hstart hnone hnew hlate
    refine ⟨?_, before, after, key, leader, rfl, hwait, hgone⟩
    rw [lookUps_append]
    exact List.mem_append_left _ (missed_of_waiting hnew hwait)
  case uncancelled =>
    intro hkept
    refine List.eq_nil_iff_forall_not_mem.2 fun id hlate => ?_
    obtain ⟨before, after, _, leader, rfl, _, earlier, later, rfl, _⟩ :=
      abandoned_of_late hstart hnone hnew hlate
    exact hkept leader (by simp)

/-- The second get waits for the first, whose fetch is detached and then cancelled. By the time
that it asks again, the third has brought the value. -/
def orphaned : List (Move Address StoreError) :=
  [.get ⟨"k"⟩, .get ⟨"k"⟩, .invalidate ⟨"k"⟩, .get ⟨"k"⟩, .answer 2 (.ok [3]), .settle 2,
    .publish 2, .cancel 0, .close 0, .look 1]

/-- The get that has lost its leader counts as a miss and as a hit. -/
theorem not_always_once : ¬ ∀ (config : CacheConfig) (now : Nat)
    (moves : List (Move Address StoreError)),
    ((start (.create config) now).run moves).cache.stats.hits +
      ((start (.create config) now).run moves).cache.stats.misses =
        ((start (.create config) now).run moves).calls.length := by
  intro h
  have htwice : ((start (.create {}) 0).run orphaned).cache.stats.hits +
      ((start (.create {}) 0).run orphaned).cache.stats.misses = 4 := by decide
  have hgets : ((start (.create {}) 0).run orphaned).calls.length = 3 := by decide
  have honce := h {} 0 orphaned
  omega

end Traffic

end KeyedBlocks
