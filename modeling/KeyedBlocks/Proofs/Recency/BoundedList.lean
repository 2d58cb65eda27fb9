import KeyedBlocks.Proofs.Recency.Mapped
import KeyedBlocks.Proofs.Recency.Ordered
import Mathlib.Data.List.Induction

/-!
A bounded map as a plain list of entries with different keys, from the least to the most recently
used. The list knows nothing of stamps: an entry that is used goes to its end, and an entry that has
to go is taken from its front. After any uses the map shows what the list is then, and answers the
next use as the list does.
-/
namespace KeyedBlocks.RecencyMap

inductive Use (κ ν : Type)
  | insert (key : κ) (value : ν)
  | get (key : κ)
  | peek (key : κ)
  | contains (key : κ)
  | remove (key : κ)
  | clear
  deriving DecidableEq, Repr

inductive Answer (κ ν : Type)
  /-- The entry that was driven out. -/
  | evicted (entry : Option (κ × ν))
  | found (value : Option ν)
  | present (there : Bool)
  | done
  deriving DecidableEq, Repr

variable {κ ν : Type}

def Use.takesStamp : Use κ ν → Bool
  | .insert .. | .get _ => true
  | .peek _ | .contains _ | .remove _ | .clear => false

variable [DecidableEq κ]

section Lists

def valueOf? (key : κ) (items : List (κ × ν)) : Option ν :=
  (items.find? fun item => item.1 = key).map Prod.snd

def without (key : κ) (items : List (κ × ν)) : List (κ × ν) :=
  items.eraseP fun item => item.1 = key

/-- What a list with room for `capacity` entries becomes, and what it answers. -/
def listUse (capacity : Nat) (items : List (κ × ν)) : Use κ ν → List (κ × ν) × Answer κ ν
  | .insert key value =>
      if key ∈ items.map Prod.fst then (without key items ++ [(key, value)], .evicted none)
      else if items.length < capacity then (items ++ [(key, value)], .evicted none)
      else (items.tail ++ [(key, value)], .evicted items.head?)
  | .get key =>
      match valueOf? key items with
      | some value => (without key items ++ [(key, value)], .found (some value))
      | none => (items, .found none)
  | .peek key => (items, .found (valueOf? key items))
  | .contains key => (items, .present (key ∈ items.map Prod.fst))
  | .remove key => (without key items, .found (valueOf? key items))
  | .clear => ([], .done)

def listRun (capacity : Nat) (uses : List (Use κ ν)) : List (κ × ν) :=
  uses.foldl (fun items u => (listUse capacity items u).1) []

theorem valueOf?_eq (key : κ) (items : List (κ × ν)) :
    valueOf? key items = Assoc.find? key items := by
  induction items with
  | nil => rfl
  | cons item rest ih =>
    obtain ⟨k, v⟩ := item
    unfold valueOf? at ih ⊢
    by_cases hk : k = key
    · simp [Assoc.find?, hk]
    · simp [Assoc.find?, hk, ih]

/-- Where keys are different, the first entry of a key is the only one. -/
theorem without_eq {items : List (κ × ν)} (hkeys : (items.map Prod.fst).Nodup) (key : κ) :
    without key items = Assoc.erase key items := by
  induction items with
  | nil => rfl
  | cons item rest ih =>
    obtain ⟨hfirst, hrest⟩ := List.nodup_cons.1 hkeys
    by_cases hk : item.1 = key
    · have herase : Assoc.erase key (item :: rest) = Assoc.erase key rest :=
        List.filter_cons_of_neg (by simp [hk])
      rw [herase, Assoc.erase_of_absent (hk ▸ hfirst)]
      exact List.eraseP_cons_of_pos (by simp [hk])
    · have herase : Assoc.erase key (item :: rest) = item :: Assoc.erase key rest :=
        List.filter_cons_of_pos (by simp [hk])
      rw [herase, ← ih hrest]
      exact List.eraseP_cons_of_neg (by simp [hk])

end Lists

variable (m : RecencyMap κ ν)

def use : Use κ ν → RecencyMap κ ν × Answer κ ν
  | .insert key value => ((m.insert key value).1, .evicted (m.insert key value).2)
  | .get key => ((m.get key).1, .found (m.get key).2)
  | .peek key => (m, .found (m.peek key))
  | .contains key => (m, .present (m.contains key))
  | .remove key => ((m.remove key).1, .found (m.remove key).2)
  | .clear => (m.clear, .done)

def run (uses : List (Use κ ν)) : RecencyMap κ ν := uses.foldl (fun now u => (now.use u).1) m

@[simp] theorem run_concat (uses : List (Use κ ν)) (u : Use κ ν) :
    m.run (uses ++ [u]) = ((m.run uses).use u).1 :=
  List.foldl_append

/-- All that can be seen of a map is as in a list of entries with different keys that fits. -/
structure Shows (items : List (κ × ν)) : Prop where
  list : m.toList = items
  keys : m.recency.keys = items.map Prod.fst
  size : m.size = items.length
  isEmpty : m.isEmpty = items.isEmpty
  distinct : (items.map Prod.fst).Nodup
  room : items.length ≤ m.capacity

/-- After any uses the map shows the list, and answers whatever is asked next as the list does.
Stamps are taken by insertions and look-ups, and no other use gives any back. -/
structure ActsAsList : Prop where
  shows : ∀ uses, (m.run uses).Shows (listRun m.capacity uses)
  answers : ∀ uses u,
    ((m.run uses).use u).2 = (listUse m.capacity (listRun m.capacity uses) u).2
  capacity : ∀ uses, (m.run uses).capacity = m.capacity
  stamps : ∀ uses, (m.run uses).recency.lastStamp =
    m.recency.lastStamp + (uses.filter Use.takesStamp).length

section Steps

variable {m}

theorem Sound.shows (h : m.Sound) : m.Shows m.toList := by
  obtain ⟨rows, hrows, hlength⟩ := h.ordered
  have hsize : m.size = m.toList.length := hrows.size_eq.trans hrows.length_eq.symm
  refine ⟨rfl, hrows.recency_keys.trans hrows.keys_eq.symm, hsize, ?_, h.keys_nodup, h.length_le⟩
  rw [Bool.eq_iff_iff, List.isEmpty_iff_length_eq_zero, ← hsize]
  exact List.isEmpty_iff_length_eq_zero

theorem Sound.peek_eq (h : m.Sound) (key : κ) : m.peek key = valueOf? key m.toList := by
  obtain ⟨rows, hrows, _⟩ := h.ordered
  rw [valueOf?_eq, hrows.toList_eq, peek, hrows.slot?_eq]
  exact (Assoc.find?_mapValues Prod.fst key rows).symm

theorem Sound.mem_keys_iff (h : m.Sound) {key : κ} :
    key ∈ m.toList.map Prod.fst ↔ (m.slot? key).isSome := by
  rw [Assoc.mem_keys_iff, ← valueOf?_eq, ← h.peek_eq, peek, Option.isSome_map]

theorem Sound.contains_eq (h : m.Sound) (key : κ) :
    m.contains key = decide (key ∈ m.toList.map Prod.fst) := by
  rw [Bool.eq_iff_iff, decide_eq_true_iff, h.mem_keys_iff, contains]

theorem Sound.insert_lists (h : m.Sound) (key : κ) (value : ν) :
    ((m.use (.insert key value)).1.toList, (m.use (.insert key value)).2) =
      listUse m.capacity m.toList (.insert key value) := by
  obtain ⟨_, hinsertion⟩ := h.insert key value
  simp only [use, listUse]
  generalize (m.insert key value).1 = next at hinsertion ⊢
  generalize (m.insert key value).2 = dropped at hinsertion ⊢
  cases hinsertion with
  | fits hroom hentries =>
    by_cases hpresent : key ∈ m.toList.map Prod.fst
    · rw [if_pos hpresent, without_eq h.keys_nodup, hentries, Assoc.insert]
    · have hfits := hroom.resolve_left hpresent
      rw [if_neg hpresent, if_pos hfits, hentries, Assoc.insert, Assoc.erase_of_absent hpresent]
  | evicts habsent hfull hbefore hentries =>
    rw [if_neg habsent, if_neg (Nat.not_lt.2 (Nat.le_of_eq hfull.symm)), hentries, hbefore]
    rfl

/-- To find an entry is to insert it anew. -/
theorem get_of_slot? {key : κ} {value : ν} {stamp : Nat}
    (hslot : m.slot? key = some (value, stamp)) :
    m.get key = ((m.insert key value).1, some value) := by
  simp only [get, insert, hslot]

theorem get_of_absent {key : κ} (hslot : m.slot? key = none) :
    m.get key = ({ m with recency := m.recency.skip }, none) := by
  simp only [get, hslot]

omit [DecidableEq κ] in
theorem Sound.skip (h : m.Sound) : Sound { m with recency := m.recency.skip } := by
  obtain ⟨rows, hrows, hlength⟩ := h.ordered
  refine ⟨h.positive, rows, ⟨hrows.order, hrows.entries, hrows.keys, hrows.stamps, ?_⟩, hlength⟩
  exact fun row hmem => Nat.le_succ_of_le (hrows.bounded row hmem)

theorem Sound.get (h : m.Sound) (key : κ) : (m.get key).1.Sound := by
  cases hslot : m.slot? key with
  | none =>
    rw [get_of_absent hslot]
    exact h.skip
  | some entry =>
    rw [get_of_slot? hslot]
    exact (h.insert key entry.1).1

theorem Sound.get_lists (h : m.Sound) (key : κ) :
    ((m.use (.get key)).1.toList, (m.use (.get key)).2) =
      listUse m.capacity m.toList (.get key) := by
  have hpeek : valueOf? key m.toList = m.peek key := (h.peek_eq key).symm
  cases hslot : m.slot? key with
  | none =>
    have hnone : m.peek key = none := by rw [peek, hslot, Option.map_none]
    simp only [use, listUse, hpeek, hnone, get_of_absent hslot]
    rfl
  | some entry =>
    obtain ⟨value, stamp⟩ := entry
    have hsome : m.peek key = some value := by rw [peek, hslot, Option.map_some]
    have hpresent : key ∈ m.toList.map Prod.fst := by rw [h.mem_keys_iff, hslot, Option.isSome_some]
    have hinsert := congrArg Prod.fst (h.insert_lists key value)
    simp only [use, listUse, if_pos hpresent] at hinsert
    simp only [use, listUse, hpeek, hsome, get_of_slot? hslot, hinsert]

theorem Sound.remove (h : m.Sound) (key : κ) :
    (m.remove key).1.Sound ∧ (m.remove key).1.toList = Assoc.erase key m.toList := by
  obtain ⟨rows, hrows, hlength⟩ := h.ordered
  cases hslot : m.slot? key with
  | none =>
    have hsame : m.remove key = (m, none) := by simp only [RecencyMap.remove, hslot]
    have habsent : key ∉ m.toList.map Prod.fst := by simp [h.mem_keys_iff, hslot]
    rw [hsame, Assoc.erase_of_absent habsent]
    exact ⟨h, rfl⟩
  | some entry =>
    have hleft := hrows.erase hslot
    have hremove : m.remove key = ({ m with
        recency := m.recency.strike entry.2, entries := Assoc.erase key m.entries },
          some entry.1) := by
      simp only [RecencyMap.remove, hslot]
    have hshorter : (Assoc.erase key rows).length ≤ rows.length := List.length_filter_le _ _
    rw [hremove]
    refine ⟨⟨h.positive, _, hleft, Nat.le_trans hshorter hlength⟩, ?_⟩
    rw [hleft.toList_eq, map_entry_erase, hrows.toList_eq]

theorem remove_answer (m : RecencyMap κ ν) (key : κ) : (m.remove key).2 = m.peek key := by
  cases hslot : m.slot? key <;> simp only [RecencyMap.remove, peek, hslot] <;> rfl

/-- Each use keeps a map sound, and does to it what it does to the list. -/
theorem Sound.use (h : m.Sound) (u : Use κ ν) :
    (m.use u).1.Sound ∧ ((m.use u).1.toList, (m.use u).2) = listUse m.capacity m.toList u := by
  cases u with
  | insert key value => exact ⟨(h.insert key value).1, h.insert_lists key value⟩
  | get key => exact ⟨h.get key, h.get_lists key⟩
  | peek key =>
    refine ⟨h, ?_⟩
    simp only [RecencyMap.use, listUse, h.peek_eq]
  | contains key =>
    refine ⟨h, ?_⟩
    simp only [RecencyMap.use, listUse, h.contains_eq]
  | remove key =>
    obtain ⟨hsound, hleft⟩ := h.remove key
    refine ⟨hsound, ?_⟩
    simp only [RecencyMap.use, listUse, hleft, remove_answer, h.peek_eq, without_eq h.keys_nodup]
  | clear => exact ⟨h.clear, rfl⟩

end Steps

theorem get_capacity (key : κ) : (m.get key).1.capacity = m.capacity := by
  unfold get
  split <;> rfl

theorem remove_capacity (key : κ) : (m.remove key).1.capacity = m.capacity := by
  unfold remove
  split <;> rfl

theorem use_capacity (u : Use κ ν) : (m.use u).1.capacity = m.capacity := by
  cases u with
  | insert key value => exact m.insert_capacity key value
  | get key => exact m.get_capacity key
  | remove key => exact m.remove_capacity key
  | peek | contains | clear => rfl

theorem popOldest_lastStamp : m.popOldest.1.recency.lastStamp = m.recency.lastStamp := by
  unfold popOldest
  split <;> rfl

theorem insert_lastStamp (key : κ) (value : ν) :
    (m.insert key value).1.recency.lastStamp = m.recency.lastStamp + 1 := by
  unfold insert
  split
  · rfl
  · split
    · exact congrArg Nat.succ m.popOldest_lastStamp
    · rfl

theorem get_lastStamp (key : κ) :
    (m.get key).1.recency.lastStamp = m.recency.lastStamp + 1 := by
  unfold get
  split <;> rfl

theorem remove_lastStamp (key : κ) :
    (m.remove key).1.recency.lastStamp = m.recency.lastStamp := by
  unfold remove
  split <;> rfl

theorem use_lastStamp (u : Use κ ν) :
    (m.use u).1.recency.lastStamp = m.recency.lastStamp + if u.takesStamp then 1 else 0 := by
  cases u with
  | insert key value => exact m.insert_lastStamp key value
  | get key => exact m.get_lastStamp key
  | remove key => exact m.remove_lastStamp key
  | peek | contains | clear => rfl

theorem run_capacity (uses : List (Use κ ν)) : (m.run uses).capacity = m.capacity := by
  induction uses using List.reverseRecOn with
  | nil => rfl
  | append_singleton uses u ih => rw [run_concat, use_capacity, ih]

theorem run_lastStamp (uses : List (Use κ ν)) :
    (m.run uses).recency.lastStamp =
      m.recency.lastStamp + (uses.filter Use.takesStamp).length := by
  induction uses using List.reverseRecOn with
  | nil => rfl
  | append_singleton uses u ih =>
    rw [run_concat, use_lastStamp, ih, List.filter_append, List.length_append, Nat.add_assoc]
    cases hstamp : u.takesStamp <;> simp [hstamp]

variable {m}

theorem listRun_concat (capacity : Nat) (uses : List (Use κ ν)) (u : Use κ ν) :
    listRun capacity (uses ++ [u]) = (listUse capacity (listRun capacity uses) u).1 :=
  List.foldl_append

/-- In the course of its uses a map stays sound and is the list. -/
theorem Sound.run (h : m.Sound) (hempty : m.toList = []) (uses : List (Use κ ν)) :
    (m.run uses).Sound ∧ (m.run uses).toList = listRun m.capacity uses := by
  induction uses using List.reverseRecOn with
  | nil => exact ⟨h, hempty⟩
  | append_singleton uses u ih =>
    obtain ⟨hsound, hlist⟩ := ih
    obtain ⟨hnext, hserved⟩ := hsound.use u
    rw [m.run_capacity, hlist] at hserved
    rw [run_concat, listRun_concat, ← hserved]
    exact ⟨hnext, rfl⟩

/-- A map that can hold something acts as a list from the beginning. -/
theorem actsAsBoundedList {capacity : Nat} (hpositive : 0 < capacity) :
    ∃ m : RecencyMap κ ν, create capacity = .ok m ∧ m.capacity = capacity ∧ m.ActsAsList := by
  have hcreate : create capacity = .ok (empty capacity : RecencyMap κ ν) :=
    if_neg (Nat.ne_of_gt hpositive)
  obtain ⟨hsound, hcapacity, _⟩ := sound_create hcreate
  refine ⟨_, hcreate, hcapacity, ?_, ?_, run_capacity _, run_lastStamp _⟩
  · intro uses
    obtain ⟨hafter, hlist⟩ := hsound.run rfl uses
    exact hlist ▸ hafter.shows
  · intro uses u
    obtain ⟨hafter, hlist⟩ := hsound.run rfl uses
    have hserved := (hafter.use u).2
    rw [run_capacity, hlist] at hserved
    exact congrArg Prod.snd hserved

/-- Two entries have room. One is refreshed by a look-up, so the other is driven out; a look-up that
finds nothing and an emptying leave the stamps going on. -/
def crowded : List (Use Nat Nat) :=
  [.insert 1 10, .insert 2 20, .get 1, .get 9, .peek 2, .insert 3 30, .insert 1 11, .remove 3,
    .clear, .insert 4 40]

theorem actsAsBoundedList_crowded :
    0 < 2 ∧ (∃ m : RecencyMap Nat Nat, create 2 = .ok m ∧ m.capacity = 2 ∧ m.ActsAsList) ∧
      (listUse 2 (listRun 2 (crowded.take 5)) (.insert 3 30)) =
        ([(1, 10), (3, 30)], .evicted (some (2, 20))) ∧
      ((empty 2).run (crowded.take 7)).toList = [(3, 30), (1, 11)] ∧
      ((empty 2).run crowded).recency = ⟨[(7, 4)], 7⟩ :=
  ⟨by decide, actsAsBoundedList (by decide), by decide, by decide, by decide⟩

end KeyedBlocks.RecencyMap
