import KeyedBlocks.Proofs.Cache.Flights

/-!
Where the entries of a read cache come from. Looking up, removing and making room keep or drop
entries and change neither a value nor a time of expiry; only holding a fetched value adds one,
which expires when its time to live is over.
-/
namespace KeyedBlocks

namespace Held

variable {κ : Type} [DecidableEq κ]

/-- Some entry of a key holds a value, live or not. -/
def Holds (h : Held κ) (key : κ) (value : Bytes) : Prop :=
  ∃ entry, h.find? key = some entry ∧ entry.value = value

/-- Every entry is among those of `g`, there perhaps with another time of its last use. -/
def Within (h g : Held κ) : Prop :=
  ∀ key entry, h.find? key = some entry →
    ∃ old, g.find? key = some old ∧ old.value = entry.value ∧ old.expiresAt = entry.expiresAt

theorem Within.refl (h : Held κ) : h.Within h :=
  fun _ entry hfind => ⟨entry, hfind, rfl, rfl⟩

theorem Within.trans {f g h : Held κ} (hfg : f.Within g) (hgh : g.Within h) : f.Within h := by
  intro key entry hfind
  obtain ⟨middle, hmiddle, hvalue, hexpires⟩ := hfg key entry hfind
  obtain ⟨old, hold, hsame, hdate⟩ := hgh key middle hmiddle
  exact ⟨old, hold, hsame.trans hvalue, hdate.trans hexpires⟩

theorem Holds.within {h g : Held κ} {key : κ} {value : Bytes} (hholds : h.Holds key value)
    (hwithin : h.Within g) : g.Holds key value := by
  obtain ⟨entry, hfind, hvalue⟩ := hholds
  obtain ⟨old, hold, hsame, _⟩ := hwithin key entry hfind
  exact ⟨old, hold, hsame.trans hvalue⟩

/-- What is shown of a key is the value of an entry that has not expired. -/
theorem entry_of_peek {h : Held κ} {now : Nat} {key : κ} {value : Bytes}
    (hpeek : h.peek now key = some value) :
    ∃ entry, h.find? key = some entry ∧ entry.value = value ∧ now < entry.expiresAt := by
  unfold peek at hpeek
  cases hfind : h.find? key with
  | none => simp [hfind] at hpeek
  | some entry =>
    simp only [hfind] at hpeek
    split at hpeek
    · rename_i hlive
      exact ⟨entry, rfl, Option.some.inj hpeek, hlive⟩
    · cases hpeek

theorem holds_of_peek {h : Held κ} {now : Nat} {key : κ} {value : Bytes}
    (hpeek : h.peek now key = some value) : h.Holds key value := by
  obtain ⟨entry, hfind, hvalue, _⟩ := entry_of_peek hpeek
  exact ⟨entry, hfind, hvalue⟩

theorem find?_remove (h : Held κ) (key other : κ) :
    (h.remove key).find? other = if other = key then none else h.find? other := by
  unfold remove
  split
  · rename_i hfind
    by_cases heq : other = key
    · simp [heq, hfind]
    · simp [heq]
  · by_cases heq : other = key
    · simp [heq, find?]
    · simp [heq, find?, Assoc.find?_erase_of_ne heq]

theorem remove_within (h : Held κ) (key : κ) : (h.remove key).Within h := by
  intro other entry hfind
  rw [find?_remove] at hfind
  split at hfind
  · cases hfind
  · exact Within.refl h other entry hfind

theorem holds_of_remove {h : Held κ} {key other : κ} {value : Bytes}
    (hholds : (h.remove key).Holds other value) : other ≠ key ∧ h.Holds other value := by
  refine ⟨?_, hholds.within (h.remove_within key)⟩
  rintro rfl
  obtain ⟨entry, hfind, _⟩ := hholds
  simp [find?_remove] at hfind

theorem lookup_within (h : Held κ) (now : Nat) (key : κ) : (h.lookup now key).2.Within h := by
  unfold lookup
  cases hfind : h.find? key with
  | none => exact Within.refl h
  | some entry =>
    simp only
    split
    · exact h.remove_within key
    · intro other used hused
      by_cases heq : other = key
      · subst heq
        obtain rfl : _ = used := Option.some.inj ((Assoc.find?_insert_self ..).symm.trans hused)
        exact ⟨entry, hfind, rfl, rfl⟩
      · exact ⟨used, (Assoc.find?_insert_of_ne heq ..).symm.trans hused, rfl, rfl⟩

theorem holds_of_lookup {h : Held κ} {now : Nat} {key other : κ} {value : Bytes}
    (hholds : (h.lookup now key).2.Holds other value) : h.Holds other value :=
  hholds.within (h.lookup_within now key)

theorem dropUntil_within (need limit : Nat) (order : List (Nat × κ)) (h : Held κ) :
    (dropUntil need limit order h).2.Within h := by
  induction order generalizing h with
  | nil => exact Within.refl h
  | cons use rest ih =>
    obtain ⟨stamp, key⟩ := use
    simp only [dropUntil]
    split
    · exact Within.refl h
    · cases hfind : h.find? key with
      | none => exact ih h
      | some entry =>
        refine (ih _).trans ?_
        intro other left hleft
        have hmem := Assoc.mem_of_find?_eq_some hleft
        have hne : other ≠ key := (Assoc.mem_erase.1 hmem).1
        exact ⟨left, (Assoc.find?_erase_of_ne hne _).symm.trans hleft, rfl, rfl⟩

/-- The entry that a value is held in. -/
theorem find?_insert_self (h : Held κ) (key : κ) (value : Bytes) (expiresAt limit : Nat) :
    ∃ stamp, (h.insert key value expiresAt limit).2.find? key = some ⟨value, expiresAt, stamp⟩ :=
  ⟨_, Assoc.find?_insert_self ..⟩

/-- Holding a value leaves the other keys with entries that they have had. -/
theorem entry_of_insert {h : Held κ} {key other : κ} {value : Bytes} {expiresAt limit : Nat}
    {entry : HeldValue} (hne : other ≠ key)
    (hfind : (h.insert key value expiresAt limit).2.find? other = some entry) :
    ∃ old, h.find? other = some old ∧ old.value = entry.value ∧
      old.expiresAt = entry.expiresAt := by
  have hroom := (dropUntil_within value.length limit (h.remove key).recency.order
    (h.remove key)).trans (h.remove_within key)
  exact hroom other entry ((Assoc.find?_insert_of_ne hne ..).symm.trans hfind)

end Held

namespace ReadCache

variable {κ ε : Type} [DecidableEq κ]

/-- A fetched value that is short enough is held from now on, for the time to live. -/
theorem find?_hold_self {c : ReadCache κ} {key : κ} {value : Bytes}
    (hshort : value.length ≤ c.config.maxBytes) (now : Nat) :
    ∃ stamp, (c.hold now key value).held.find? key =
      some ⟨value, now + c.config.ttlMs, stamp⟩ := by
  simp only [hold, if_neg (Nat.not_lt.2 hshort)]
  exact c.held.find?_insert_self key value _ _

theorem entry_of_hold {c : ReadCache κ} {now : Nat} {key other : κ} {new : Bytes}
    {entry : HeldValue} (hfind : (c.hold now key new).held.find? other = some entry) :
    (other = key ∧ new.length ≤ c.config.maxBytes) ∨
      ∃ old, c.held.find? other = some old ∧ old.value = entry.value ∧
        old.expiresAt = entry.expiresAt := by
  unfold hold at hfind
  split at hfind
  · exact Or.inr ⟨entry, hfind, rfl, rfl⟩
  · rename_i hlong
    by_cases heq : other = key
    · exact Or.inl ⟨heq, Nat.not_lt.1 hlong⟩
    · exact Or.inr (Held.entry_of_insert heq hfind)

/-- The end of a fetch adds at most an entry of its own key, and only while it is registered, with
a value that is short enough. -/
theorem entry_of_settle {c : ReadCache κ} {now : Nat} {call : CallId} {key other : κ}
    {result : Except ε Bytes} {entry : HeldValue}
    (hfind : (c.settle now call key result).held.find? other = some entry) :
    (other = key ∧ c.leader? key = some call ∧
        ∃ value, result = .ok value ∧ value.length ≤ c.config.maxBytes) ∨
      ∃ old, c.held.find? other = some old ∧ old.value = entry.value ∧
        old.expiresAt = entry.expiresAt := by
  unfold settle at hfind
  split at hfind
  · rename_i hleader
    cases result with
    | ok value =>
      rcases entry_of_hold hfind with ⟨hkey, hshort⟩ | hold
      · rw [withdraw_config] at hshort
        exact Or.inl ⟨hkey, hleader, value, rfl, hshort⟩
      · rw [withdraw_held] at hold
        exact Or.inr hold
    | error e =>
      rw [withdraw_held] at hfind
      exact Or.inr ⟨entry, hfind, rfl, rfl⟩
  · exact Or.inr ⟨entry, hfind, rfl, rfl⟩

theorem find?_settle_self {c : ReadCache κ} {call : CallId} {key : κ} {value : Bytes}
    (hleader : c.leader? key = some call) (hshort : value.length ≤ c.config.maxBytes) (now : Nat) :
    ∃ stamp, (c.settle now call key (.ok value : Except ε Bytes)).held.find? key =
      some ⟨value, now + c.config.ttlMs, stamp⟩ := by
  rw [← c.withdraw_config call key] at hshort ⊢
  simp only [settle, if_pos hleader]
  exact find?_hold_self hshort now

/-- A fetch that ends with an error leaves all entries as they are. -/
theorem settle_error_held (c : ReadCache κ) (now : Nat) (call : CallId) (key : κ) (e : ε) :
    (c.settle now call key (.error e : Except ε Bytes)).held = c.held := by
  unfold settle
  split
  · exact c.withdraw_held call key
  · rfl

/-- The end of a fetch adds at most its own value, and only while it is registered. -/
theorem holds_of_settle {c : ReadCache κ} {now : Nat} {call : CallId} {key other : κ}
    {result : Except ε Bytes} {value : Bytes}
    (h : (c.settle now call key result).held.Holds other value) :
    (other = key ∧ result = .ok value ∧ c.leader? key = some call) ∨
      c.held.Holds other value := by
  obtain ⟨entry, hfind, hvalue⟩ := h
  rcases entry_of_settle hfind with ⟨rfl, hleader, new, rfl, hshort⟩ | ⟨old, hold, hsame, _⟩
  · obtain ⟨stamp, hself⟩ := find?_settle_self (ε := ε) hleader hshort now
    cases hfind.symm.trans hself
    exact Or.inl ⟨rfl, by rw [← hvalue], hleader⟩
  · exact Or.inr ⟨old, hold, hsame.trans hvalue⟩

end ReadCache

end KeyedBlocks
