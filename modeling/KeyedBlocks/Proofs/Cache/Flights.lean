import KeyedBlocks.Cache.Basic

/-!
What the critical sections of a read cache do to its registered fetches. A look-up registers a
fetch only for a key that has neither a live entry nor a fetch; every other section leaves the
register as it is, takes out one fetch, or empties it.
-/
namespace KeyedBlocks

namespace Held

variable {κ : Type} [DecidableEq κ]

theorem lookup_fst (h : Held κ) (now : Nat) (key : κ) :
    (h.lookup now key).1 = h.peek now key := by
  unfold lookup peek
  cases h.find? key with
  | none => rfl
  | some entry =>
    by_cases hlive : now < entry.expiresAt
    · simp [hlive, Nat.not_le.2 hlive]
    · simp [hlive, Nat.not_lt.1 hlive]

end Held

namespace ReadCache

variable {κ ε : Type} [DecidableEq κ]

def missed (c : ReadCache κ) (first : Bool) : CacheStats :=
  { c.stats with misses := if first then c.stats.misses + 1 else c.stats.misses }

/-- A look-up has one of three outcomes, each with all that it does to the cache. -/
theorem consult_cases (c : ReadCache κ) (now : Nat) (call : CallId) (first : Bool) (key : κ) :
    (∃ value, c.peek now key = some value ∧
      c.consult now call first key =
        (.hit value, { c with
          held := (c.held.lookup now key).2
          stats := { c.stats with hits := c.stats.hits + 1 } })) ∨
    (∃ leader, c.peek now key = none ∧ c.leader? key = some leader ∧
      c.consult now call first key =
        (.wait leader, { c with
          held := (c.held.lookup now key).2
          stats := { c.missed first with coalesced := c.stats.coalesced + 1 } })) ∨
    (c.peek now key = none ∧ c.leader? key = none ∧
      c.consult now call first key =
        (.lead, { c with
          held := (c.held.lookup now key).2
          inflight := Assoc.insert key call c.inflight
          stats := { c.missed first with loads := c.stats.loads + 1 } })) := by
  have hpeek : c.peek now key = (c.held.lookup now key).1 := (c.held.lookup_fst now key).symm
  rcases hlook : c.held.lookup now key with ⟨found, held⟩
  rw [hlook] at hpeek
  cases found with
  | some value => exact Or.inl ⟨value, hpeek, by simp [consult, hlook]⟩
  | none =>
    cases hleader : c.leader? key with
    | some leader =>
      exact Or.inr (Or.inl ⟨leader, hpeek, rfl, by simp [consult, missed, hlook, hleader]⟩)
    | none =>
      exact Or.inr (Or.inr ⟨hpeek, rfl, by simp [consult, missed, hlook, hleader]⟩)

theorem consult_hit {c : ReadCache κ} {now : Nat} {key : κ} {value : Bytes}
    (hpeek : c.peek now key = some value) (call : CallId) :
    c.consult now call true key =
      (.hit value, { c with
        held := (c.held.lookup now key).2
        stats := { c.stats with hits := c.stats.hits + 1 } }) := by
  rcases c.consult_cases now call true key with
    ⟨found, hfound, hconsult⟩ | ⟨_, hnone, _⟩ | ⟨hnone, _⟩
  · cases hpeek.symm.trans hfound
    exact hconsult
  · cases hpeek.symm.trans hnone
  · cases hpeek.symm.trans hnone

theorem consult_lead {c : ReadCache κ} {now : Nat} {key : κ} (hpeek : c.peek now key = none)
    (hfree : c.leader? key = none) (call : CallId) :
    c.consult now call true key =
      (.lead, { c with
        held := (c.held.lookup now key).2
        inflight := Assoc.insert key call c.inflight
        stats := { c.missed true with loads := c.stats.loads + 1 } }) := by
  rcases c.consult_cases now call true key with
    ⟨found, hfound, _⟩ | ⟨leader, _, hleader, _⟩ | ⟨_, _, hconsult⟩
  · cases hpeek.symm.trans hfound
  · cases hfree.symm.trans hleader
  · exact hconsult

theorem consult_config (c : ReadCache κ) (now : Nat) (call : CallId) (first : Bool) (key : κ) :
    (c.consult now call first key).2.config = c.config := by
  rcases c.consult_cases now call first key with
    ⟨value, _, hconsult⟩ | ⟨leader, _, _, hconsult⟩ | ⟨_, _, hconsult⟩
  all_goals rw [hconsult]

@[simp] theorem withdraw_stats (c : ReadCache κ) (call : CallId) (key : κ) :
    (c.withdraw call key).stats = c.stats := by
  unfold withdraw
  split <;> rfl

@[simp] theorem withdraw_config (c : ReadCache κ) (call : CallId) (key : κ) :
    (c.withdraw call key).config = c.config := by
  unfold withdraw
  split <;> rfl

@[simp] theorem withdraw_held (c : ReadCache κ) (call : CallId) (key : κ) :
    (c.withdraw call key).held = c.held := by
  unfold withdraw
  split <;> rfl

theorem withdraw_inflight (c : ReadCache κ) (call : CallId) (key : κ) :
    (c.withdraw call key).inflight =
      if c.leader? key = some call then Assoc.erase key c.inflight else c.inflight := by
  unfold withdraw
  split <;> rfl

@[simp] theorem hold_inflight (c : ReadCache κ) (now : Nat) (key : κ) (value : Bytes) :
    (c.hold now key value).inflight = c.inflight := by
  unfold hold
  split <;> rfl

@[simp] theorem hold_config (c : ReadCache κ) (now : Nat) (key : κ) (value : Bytes) :
    (c.hold now key value).config = c.config := by
  unfold hold
  split <;> rfl

/-- Holding a value counts nothing but the entries dropped. -/
theorem hold_stats (c : ReadCache κ) (now : Nat) (key : κ) (value : Bytes) :
    ∃ evictions, (c.hold now key value).stats = { c.stats with evictions } := by
  unfold hold
  split
  · exact ⟨c.stats.evictions, rfl⟩
  · exact ⟨_, rfl⟩

/-- The end of a fetch takes its own registration out of the register and no other. -/
theorem settle_inflight (c : ReadCache κ) (now : Nat) (call : CallId) (key : κ)
    (result : Except ε Bytes) :
    (c.settle now call key result).inflight = (c.withdraw call key).inflight := by
  unfold settle
  split
  · cases result <;> simp
  · rename_i hleader
    rw [withdraw_inflight, if_neg hleader]

@[simp] theorem settle_config (c : ReadCache κ) (now : Nat) (call : CallId) (key : κ)
    (result : Except ε Bytes) : (c.settle now call key result).config = c.config := by
  unfold settle
  split
  · cases result <;> simp
  · rfl

/-- The end of a fetch counts nothing but the entries dropped. -/
theorem settle_stats (c : ReadCache κ) (now : Nat) (call : CallId) (key : κ)
    (result : Except ε Bytes) :
    ∃ evictions, (c.settle now call key result).stats = { c.stats with evictions } := by
  by_cases hleads : c.leader? key = some call
  · cases result with
    | error => exact ⟨c.stats.evictions, by simp only [settle, if_pos hleads, withdraw_stats]⟩
    | ok value =>
      simp only [settle, if_pos hleads]
      rw [← c.withdraw_stats call key]
      exact (c.withdraw call key).hold_stats now key value
  · exact ⟨c.stats.evictions, by simp only [settle, if_neg hleads]⟩

@[simp] theorem settle_loads (c : ReadCache κ) (now : Nat) (call : CallId) (key : κ)
    (result : Except ε Bytes) :
    (c.settle now call key result).stats.loads = c.stats.loads := by
  obtain ⟨evictions, hstats⟩ := c.settle_stats now call key result
  rw [hstats]

/-- Only the registration of `call` itself can be missing after it has withdrawn. -/
theorem mem_withdraw_inflight {c : ReadCache κ} {call : CallId} {key : κ}
    (hkeys : (c.inflight.map Prod.fst).Nodup) {other : κ} {leader : CallId} :
    (other, leader) ∈ (c.withdraw call key).inflight ↔
      (other, leader) ∈ c.inflight ∧ ¬ (other = key ∧ leader = call) := by
  rw [withdraw_inflight]
  split
  · rename_i hleader
    rw [Assoc.mem_erase]
    constructor
    · rintro ⟨hne, hmem⟩
      exact ⟨hmem, fun h => hne h.1⟩
    · rintro ⟨hmem, hne⟩
      refine ⟨?_, hmem⟩
      rintro rfl
      have hsame := Assoc.find?_eq_some_of_mem hkeys hmem
      exact hne ⟨rfl, Option.some.inj (hsame.symm.trans hleader)⟩
  · rename_i hleader
    refine ⟨fun hmem => ⟨hmem, ?_⟩, fun h => h.1⟩
    rintro ⟨rfl, rfl⟩
    exact hleader (Assoc.find?_eq_some_of_mem hkeys hmem)

theorem mem_of_mem_withdraw {c : ReadCache κ} {call leader : CallId} {key other : κ}
    (h : (other, leader) ∈ (c.withdraw call key).inflight) : (other, leader) ∈ c.inflight := by
  rw [withdraw_inflight] at h
  split at h
  · exact (Assoc.mem_erase.1 h).2
  · exact h

theorem withdraw_keys_nodup {c : ReadCache κ} (hkeys : (c.inflight.map Prod.fst).Nodup)
    (call : CallId) (key : κ) : ((c.withdraw call key).inflight.map Prod.fst).Nodup := by
  rw [withdraw_inflight]
  split
  · exact Assoc.erase_keys_nodup key hkeys
  · exact hkeys

end ReadCache

end KeyedBlocks
