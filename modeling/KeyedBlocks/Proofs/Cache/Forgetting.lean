import KeyedBlocks.Proofs.Backends.FaultFree
import KeyedBlocks.Proofs.Cache.OneGet
import KeyedBlocks.Proofs.Traffic.Provenance

/-!
What a cache knows after it was told to forget some keys. Neither an entry of such a key is left nor
a registered fetch, so a get goes to where the block is kept.
-/
namespace KeyedBlocks

namespace ReadCache

variable {κ : Type} [DecidableEq κ]

theorem Forgotten.peek_eq_none {c : ReadCache κ} {key : κ} (h : c.Forgotten key) (now : Nat) :
    c.peek now key = none := by
  apply Option.eq_none_iff_forall_ne_some.2
  intro value hpeek
  exact h.unheld value (Held.holds_of_peek hpeek)

theorem Forgotten.leader?_eq_none {c : ReadCache κ} {key : κ} (h : c.Forgotten key) :
    c.leader? key = none :=
  Assoc.find?_eq_none_iff.2 h.unregistered

theorem holds_of_invalidateAll {c : ReadCache κ} {keys : List κ} {key : κ} {value : Bytes}
    (h : (c.invalidateAll keys).held.Holds key value) : key ∉ keys ∧ c.held.Holds key value := by
  induction keys generalizing c with
  | nil => exact ⟨List.not_mem_nil, h⟩
  | cons first rest ih =>
    obtain ⟨hrest, hholds⟩ := ih (c := c.invalidate first) h
    obtain ⟨hne, hbefore⟩ := Held.holds_of_remove hholds
    exact ⟨fun hmem => (List.mem_cons.1 hmem).elim hne hrest, hbefore⟩

theorem mem_inflight_of_invalidateAll {c : ReadCache κ} {keys : List κ} {key : κ} {id : CallId}
    (h : (key, id) ∈ (c.invalidateAll keys).inflight) : key ∉ keys ∧ (key, id) ∈ c.inflight := by
  induction keys generalizing c with
  | nil => exact ⟨List.not_mem_nil, h⟩
  | cons first rest ih =>
    obtain ⟨hrest, hmem⟩ := ih (c := c.invalidate first) h
    obtain ⟨hne, hbefore⟩ := Assoc.mem_erase.1 hmem
    exact ⟨fun hmem => (List.mem_cons.1 hmem).elim hne hrest, hbefore⟩

theorem invalidateAll_forgotten (c : ReadCache κ) {keys : List κ} {key : κ} (h : key ∈ keys) :
    (c.invalidateAll keys).Forgotten key where
  unheld _ hholds := (holds_of_invalidateAll hholds).1 h
  unregistered _ hmem := (mem_inflight_of_invalidateAll hmem).1 h

/-- One cache is what another became when it forgot some keys: of those it knows nothing, and of the
others what it knew. -/
structure Forgot (before after : ReadCache κ) (keys : List κ) : Prop where
  forgotten : ∀ key ∈ keys, after.Forgotten key
  held : ∀ key ∉ keys, after.held.find? key = before.held.find? key
  registered : ∀ key ∉ keys, after.leader? key = before.leader? key
  stats : after.stats = before.stats

theorem invalidateAll_forgot (c : ReadCache κ) (keys : List κ) :
    c.Forgot (c.invalidateAll keys) keys := by
  refine ⟨fun key hmem => c.invalidateAll_forgotten hmem, ?_, ?_, ?_⟩
  · intro key hkey
    induction keys generalizing c with
    | nil => rfl
    | cons first rest ih =>
      have hfirst : (c.invalidate first).held.find? key = c.held.find? key :=
        (Held.find?_remove ..).trans (if_neg (List.ne_of_not_mem_cons hkey))
      exact (ih (c.invalidate first) (List.not_mem_of_not_mem_cons hkey)).trans hfirst
  · intro key hkey
    induction keys generalizing c with
    | nil => rfl
    | cons first rest ih =>
      have hfirst : (c.invalidate first).leader? key = c.leader? key :=
        Assoc.find?_erase_of_ne (List.ne_of_not_mem_cons hkey) c.inflight
      exact (ih (c.invalidate first) (List.not_mem_of_not_mem_cons hkey)).trans hfirst
  · induction keys generalizing c with
    | nil => rfl
    | cons first rest ih => exact ih (c.invalidate first)

/-- What is forgotten can be forgotten again, and nothing changes. -/
theorem invalidate_of_forgotten {c : ReadCache κ} {key : κ} (h : c.Forgotten key) :
    c.invalidate key = c := by
  have hheld : c.held.remove key = c.held := by
    unfold Held.remove
    rw [h.find?_eq_none]
  have hinflight : Assoc.erase key c.inflight = c.inflight := by
    refine List.filter_eq_self.2 fun entry hmem => ?_
    have hne : entry.1 ≠ key := by
      rintro rfl
      exact h.unregistered entry.2 hmem
    simp [hne]
  unfold ReadCache.invalidate
  rw [hheld, hinflight]

theorem invalidateAll_of_forgotten {c : ReadCache κ} {keys : List κ}
    (h : ∀ key ∈ keys, c.Forgotten key) : c.invalidateAll keys = c := by
  induction keys with
  | nil => rfl
  | cons first rest ih =>
    have hfirst : c.invalidate first = c :=
      invalidate_of_forgotten (h first (List.mem_cons_self ..))
    have hrest := ih fun key hmem => h key (List.mem_cons_of_mem _ hmem)
    show (c.invalidate first).invalidateAll rest = c
    rw [hfirst, hrest]

theorem invalidateAll_append (c : ReadCache κ) (front back : List κ) :
    c.invalidateAll (front ++ back) = (c.invalidateAll front).invalidateAll back :=
  List.foldl_append

/-- Of keys that are forgotten in two goes, where each begins anew, those of the longer one count.
-/
theorem invalidateAll_prefix (c : ReadCache κ) {front keys : List κ} (h : front <+: keys) :
    (c.invalidateAll front).invalidateAll keys = c.invalidateAll keys ∧
      (c.invalidateAll keys).invalidateAll front = c.invalidateAll keys := by
  obtain ⟨back, rfl⟩ := h
  constructor
  · have hagain : (c.invalidateAll front).invalidateAll front = c.invalidateAll front :=
      invalidateAll_of_forgotten fun key hmem => c.invalidateAll_forgotten hmem
    rw [invalidateAll_append, hagain, invalidateAll_append]
  · exact invalidateAll_of_forgotten fun key hmem =>
      c.invalidateAll_forgotten (List.mem_append_left _ hmem)

end ReadCache

/-- A get that finds nothing in the cache, and nothing where the block is kept, fails. -/
theorem Site.get_error {β ω : Type} [Backend β ω] {s : Site β} {raw : Bytes} {a : Address}
    (hforgotten : s.cache.Forgotten a) (hnone : ∀ value, answer s.backend raw a ≠ .ok value) :
    ∃ e, (s.get raw a).2 = .error e := by
  rw [Site.get_miss raw (hforgotten.peek_eq_none s.now) hforgotten.leader?_eq_none]
  unfold Timeline.Loader.outcome
  split
  · cases hanswer : answer s.backend raw a with
    | ok value => exact absurd hanswer (hnone value)
    | error e => exact ⟨e, hanswer⟩
  · exact ⟨_, rfl⟩

end KeyedBlocks
