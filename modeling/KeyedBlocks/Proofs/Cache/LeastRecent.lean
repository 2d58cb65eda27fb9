import KeyedBlocks.Proofs.Cache.Accesses
import KeyedBlocks.Proofs.Recency.Mapped
import Mathlib.Data.List.Induction

/-!
The held values of a read cache as a plain list of keys, values and times of expiry, from the least
to the most recently used. Whatever is done to them can be told by that list: a live look-up moves
an entry to the end, an expired one takes it away, and a value that is taken in drives out the
shortest front of the list that leaves it enough room, and no other entry.
-/
namespace KeyedBlocks.Held

/-- A key with its value and the time at which it expires. -/
abbrev Item (κ : Type) := κ × Bytes × Nat

inductive Answer
  | found (value : Option Bytes)
  /-- So many entries were dropped to make room. -/
  | dropped (count : Nat)
  | done
  deriving DecidableEq

section Lists

variable {κ : Type}

def weight (items : List (Item κ)) : Nat := (items.map fun item => item.2.1.length).sum

/-- A list is cut where the shortest front comes off that leaves room for `need` more bytes. -/
structure CutFor (need limit : Nat) (items front back : List (Item κ)) : Prop where
  split : items = front ++ back
  fits : weight back + need ≤ limit
  shortest : ∀ less more, items = less ++ more → weight more + need ≤ limit →
    front.length ≤ less.length

/-- There is one place only where a list can be cut. -/
theorem CutFor.unique {need limit : Nat} {items front back front' back' : List (Item κ)}
    (h : CutFor need limit items front back) (h' : CutFor need limit items front' back') :
    front = front' ∧ back = back' := by
  have hle : front.length ≤ front'.length := h.shortest front' back' h'.split h'.fits
  have hge : front'.length ≤ front.length := h'.shortest front back h.split h.fits
  apply List.append_inj (h.split.symm.trans h'.split)
  omega

variable [DecidableEq κ]

/-- What an access to a list answers, and the list that it leaves. -/
inductive Serves (items : List (Item κ)) : Access κ → Answer → List (Item κ) → Prop
  | absent {now : Nat} {key : κ} (hfind : Assoc.find? key items = none) :
      Serves items (.lookup now key) (.found none) items
  | expired {now expiresAt : Nat} {key : κ} {value : Bytes}
      (hfind : Assoc.find? key items = some (value, expiresAt)) (hlate : expiresAt ≤ now) :
      Serves items (.lookup now key) (.found none) (Assoc.erase key items)
  | live {now expiresAt : Nat} {key : κ} {value : Bytes}
      (hfind : Assoc.find? key items = some (value, expiresAt)) (hlive : now < expiresAt) :
      Serves items (.lookup now key) (.found (some value))
        (Assoc.erase key items ++ [(key, value, expiresAt)])
  | remove {key : κ} : Serves items (.remove key) .done (Assoc.erase key items)
  | hold {key : κ} {value : Bytes} {expiresAt limit : Nat} {front back : List (Item κ)}
      (hcut : CutFor value.length limit (Assoc.erase key items) front back) :
      Serves items (.hold key value expiresAt limit) (.dropped front.length)
        (back ++ [(key, value, expiresAt)])
  | clear : Serves items .clear .done []

/-- A list leaves no choice of what to answer and what to become. -/
theorem Serves.unique {items next next' : List (Item κ)} {a : Access κ} {answer answer' : Answer}
    (h : Serves items a answer next) (h' : Serves items a answer' next') :
    answer = answer' ∧ next = next' := by
  cases h with
  | absent hfind =>
    cases h' with
    | absent => exact ⟨rfl, rfl⟩
    | expired hfind' | live hfind' => cases hfind.symm.trans hfind'
  | expired hfind hlate =>
    cases h' with
    | absent hfind' => cases hfind.symm.trans hfind'
    | expired => exact ⟨rfl, rfl⟩
    | live hfind' hlive =>
      cases hfind.symm.trans hfind'
      omega
  | live hfind hlive =>
    cases h' with
    | absent hfind' => cases hfind.symm.trans hfind'
    | expired hfind' hlate =>
      cases hfind.symm.trans hfind'
      omega
    | live hfind' =>
      cases hfind.symm.trans hfind'
      exact ⟨rfl, rfl⟩
  | remove =>
    cases h'
    exact ⟨rfl, rfl⟩
  | hold hcut =>
    cases h' with
    | hold hcut' =>
      obtain ⟨rfl, rfl⟩ := hcut.unique hcut'
      exact ⟨rfl, rfl⟩
  | clear =>
    cases h'
    exact ⟨rfl, rfl⟩

end Lists

variable {κ : Type}

/-- A value that is taken in is no longer than all that may be held. -/
def Access.Fits : Access κ → Prop
  | .hold _ value _ limit => value.length ≤ limit
  | _ => True

def shown (entry : HeldValue) : Bytes × Nat := (entry.value, entry.expiresAt)

def itemsOf (rows : List (κ × HeldValue)) : List (Item κ) := Assoc.mapValues shown rows

theorem weight_itemsOf (rows : List (κ × HeldValue)) : weight (itemsOf rows) = total rows := by
  rw [weight, itemsOf, Assoc.mapValues, List.map_map]
  rfl

theorem keys_itemsOf (rows : List (κ × HeldValue)) :
    (itemsOf rows).map Prod.fst = rows.map Prod.fst := by
  rw [itemsOf, Assoc.mapValues, List.map_map]
  rfl

theorem itemsOf_append (rows others : List (κ × HeldValue)) :
    itemsOf (rows ++ others) = itemsOf rows ++ itemsOf others :=
  List.map_append

theorem itemsOf_concat (rows : List (κ × HeldValue)) (key : κ) (entry : HeldValue) :
    itemsOf (rows ++ [(key, entry)]) = itemsOf rows ++ [(key, entry.value, entry.expiresAt)] :=
  itemsOf_append rows [(key, entry)]

/-- If there is room behind `count` rows, and none behind fewer, the list is cut there. -/
theorem cutFor_itemsOf {rows : List (κ × HeldValue)} {need limit count : Nat} (hneed : need ≤ limit)
    (hfits : total (rows.drop count) + need ≤ limit)
    (hfewer : ∀ fewer < count, limit < total (rows.drop fewer) + need) :
    CutFor need limit (itemsOf rows) (itemsOf (rows.take count)) (itemsOf (rows.drop count)) ∧
      (itemsOf (rows.take count)).length = count := by
  have hcount : count ≤ rows.length := by
    by_contra hmore
    have hnone : total (rows.drop rows.length) = 0 := by
      rw [List.drop_length]
      rfl
    have hall := hfewer rows.length (by omega)
    exact absurd hneed (by omega)
  have hlength : (itemsOf (rows.take count)).length = count := by
    rw [itemsOf, Assoc.mapValues, List.length_map, List.length_take]
    omega
  refine ⟨⟨?_, ?_, ?_⟩, hlength⟩
  · rw [← itemsOf_append, List.take_append_drop]
  · rw [weight_itemsOf]
    exact hfits
  · -- A shorter front that leaves room is as many rows, fewer than `count`.
    intro less more hsplit hroom
    by_contra hshorter
    have hmore : itemsOf (rows.drop less.length) = more := by
      rw [itemsOf, Assoc.mapValues, List.map_drop]
      have hdrop : (itemsOf rows).drop less.length = more := by
        rw [hsplit, List.drop_left]
      exact hdrop
    have hover := hfewer less.length (by omega)
    rw [← weight_itemsOf, hmore] at hover
    omega

variable [DecidableEq κ]

theorem erase_itemsOf (key : κ) (rows : List (κ × HeldValue)) :
    Assoc.erase key (itemsOf rows) = itemsOf (Assoc.erase key rows) :=
  Assoc.erase_mapValues shown key rows

def answer (h : Held κ) : Access κ → Answer
  | .lookup now key => .found (h.lookup now key).1
  | .hold key value expiresAt limit => .dropped (h.insert key value expiresAt limit).1
  | .remove _ | .clear => .done

def run (h : Held κ) (accesses : List (Access κ)) : Held κ := accesses.foldl access h

@[simp] theorem run_concat (h : Held κ) (accesses : List (Access κ)) (a : Access κ) :
    h.run (accesses ++ [a]) = (h.run accesses).access a :=
  List.foldl_append

/-- The values held are those of a list, and all that can be seen of them is as in the list. -/
structure Shows (h : Held κ) (items : List (Item κ)) : Prop where
  list : h.toList = items
  keys : (items.map Prod.fst).Nodup
  size : h.size = items.length
  bytes : h.bytes = weight items
  peek : ∀ now key, h.peek now key =
    (Assoc.find? key items).bind fun item => if now < item.2 then some item.1 else none

section Ordered

variable {h : Held κ} {rows : List (κ × HeldValue)} (hrows : h.Ordered rows)
include hrows

theorem Ordered.find?_itemsOf (key : κ) :
    Assoc.find? key (itemsOf rows) = (h.find? key).map shown := by
  rw [itemsOf, Assoc.find?_mapValues, hrows.find?_eq]

theorem Ordered.toList_eq : h.toList = itemsOf rows := by
  have hitem : ∀ row ∈ rows,
      ((fun key => (h.find? key).map fun entry => (key, entry.value, entry.expiresAt)) ∘
        Prod.fst) row = some (row.1, shown row.2) := by
    intro row hmem
    have hfind : h.find? row.1 = some row.2 :=
      (hrows.find?_eq row.1).trans (Assoc.find?_eq_some_of_mem hrows.keys hmem)
    simp only [Function.comp_apply, hfind, Option.map_some, shown]
  rw [toList, hrows.recency_keys, List.filterMap_map, List.filterMap_congr hitem]
  exact congrFun List.filterMap_eq_map rows

theorem Ordered.shows : h.Shows (itemsOf rows) where
  list := hrows.toList_eq
  keys := by
    rw [keys_itemsOf]
    exact hrows.keys
  size := by
    rw [itemsOf, Assoc.mapValues, List.length_map]
    exact hrows.entries.length_eq
  bytes := by
    rw [weight_itemsOf]
    exact hrows.counted
  peek now key := by
    rw [hrows.find?_itemsOf, Held.peek]
    cases h.find? key <;> rfl

theorem Ordered.serves_lookup (now : Nat) (key : κ) :
    ∃ next, (h.lookup now key).2.Ordered next ∧
      Serves (itemsOf rows) (.lookup now key) (.found (h.lookup now key).1) (itemsOf next) := by
  have hshown := hrows.find?_itemsOf key
  cases hfind : h.find? key with
  | none =>
    have hsame : h.lookup now key = (none, h) := by simp only [Held.lookup, hfind]
    rw [hfind] at hshown
    rw [hsame]
    exact ⟨rows, hrows, .absent hshown⟩
  | some entry =>
    rw [hfind] at hshown
    by_cases hlive : now < entry.expiresAt
    · have habsent := Assoc.key_not_mem_erase key rows
      rw [hrows.lookup_live hfind hlive]
      refine ⟨_, (hrows.remove key).place habsent entry.value entry.expiresAt, ?_⟩
      rw [itemsOf_concat, ← erase_itemsOf]
      exact .live hshown hlive
    · have hlate : entry.expiresAt ≤ now := Nat.not_lt.1 hlive
      have hgone : h.lookup now key = (none, h.remove key) := by
        simp only [Held.lookup, hfind, hlate, if_true]
      rw [hgone]
      refine ⟨_, hrows.remove key, ?_⟩
      rw [← erase_itemsOf]
      exact .expired hshown hlate

theorem Ordered.serves_hold {value : Bytes} {limit : Nat} (hfits : value.length ≤ limit) (key : κ)
    (expiresAt : Nat) :
    ∃ next, (h.insert key value expiresAt limit).2.Ordered next ∧
      Serves (itemsOf rows) (.hold key value expiresAt limit)
        (.dropped (h.insert key value expiresAt limit).1) (itemsOf next) := by
  obtain ⟨count, stamp, hcount, hnext, hbytes, hfewer⟩ := hrows.insert hfits key expiresAt
  have hroom : total ((Assoc.erase key rows).drop count) + value.length ≤ limit := by
    rw [hnext.counted, total_append, total_cons] at hbytes
    exact hbytes
  obtain ⟨hcut, hlength⟩ := cutFor_itemsOf hfits hroom hfewer
  rw [← erase_itemsOf] at hcut
  refine ⟨_, hnext, ?_⟩
  rw [itemsOf_concat, hcount]
  have hserves : Serves (itemsOf rows) (.hold key value expiresAt limit) _ _ := .hold hcut
  rwa [hlength] at hserves

/-- Each access is served as the list serves it. -/
theorem Ordered.serves {a : Access κ} (hfits : a.Fits) :
    ∃ next, (h.access a).Ordered next ∧ Serves (itemsOf rows) a (h.answer a) (itemsOf next) := by
  cases a with
  | lookup now key => exact hrows.serves_lookup now key
  | remove key =>
    refine ⟨_, hrows.remove key, ?_⟩
    rw [← erase_itemsOf]
    exact .remove
  | hold key value expiresAt limit => exact hrows.serves_hold hfits key expiresAt
  | clear => exact ⟨[], ordered_nil h.recency, .clear⟩

end Ordered

theorem ordered_run {accesses : List (Access κ)} (hfits : ∀ a ∈ accesses, a.Fits) :
    ∃ rows, ((empty : Held κ).run accesses).Ordered rows := by
  induction accesses using List.reverseRecOn with
  | nil => exact ⟨[], ordered_nil .empty⟩
  | append_singleton accesses a ih =>
    obtain ⟨rows, hrows⟩ := ih fun earlier hmem => hfits earlier (List.mem_append_left _ hmem)
    obtain ⟨next, hnext, _⟩ := hrows.serves (hfits a (by simp))
    rw [run_concat]
    exact ⟨next, hnext⟩

/-- In the course of some accesses to nothing, the values held are those of a list that serves each
access, and there is one way only in which it can. -/
structure ActsAsList (accesses : List (Access κ)) : Prop where
  begins : (empty : Held κ).Shows []
  served : ∀ before a after, accesses = before ++ a :: after →
    ∃ items next, (empty.run before).Shows items ∧ (empty.run (before ++ [a])).Shows next ∧
      Serves items a ((empty.run before).answer a) next ∧
      ∀ answer other, Serves items a answer other →
        answer = (empty.run before).answer a ∧ other = next

/-- Values that fit are held as in a list. -/
theorem actsAsList {accesses : List (Access κ)} (hfits : ∀ a ∈ accesses, a.Fits) :
    ActsAsList accesses where
  begins := (ordered_nil .empty).shows
  served := by
    rintro before a after rfl
    obtain ⟨rows, hrows⟩ := ordered_run fun earlier hmem =>
      hfits earlier (List.mem_append_left _ hmem)
    obtain ⟨next, hnext, hserves⟩ := hrows.serves (hfits a (by simp))
    refine ⟨itemsOf rows, itemsOf next, hrows.shows, ?_, hserves, ?_⟩
    · rw [run_concat]
      exact hnext.shows
    · intro answer other hother
      exact hother.unique hserves

/-- A value of no bytes is looked up, so that the longer one after it has to go. -/
def crowded : List (Access Nat) :=
  [.hold 1 [] 10 4, .hold 2 [7, 7, 7] 10 4, .lookup 5 1, .hold 3 [8, 8] 20 4, .lookup 12 1]

theorem actsAsList_crowded :
    (∀ a ∈ crowded, a.Fits) ∧ ActsAsList crowded ∧
      ((empty.run (crowded.take 3)).answer (.hold 3 [8, 8] 20 4) = .dropped 1) ∧
      (empty.run (crowded.take 4)).toList = [(1, [], 10), (3, [8, 8], 20)] ∧
      (empty.run crowded).toList = [(3, [8, 8], 20)] := by
  have hfits : ∀ a ∈ crowded, a.Fits := by
    simp [crowded, Access.Fits]
  exact ⟨hfits, actsAsList hfits, by decide, by decide, by decide⟩

end KeyedBlocks.Held
