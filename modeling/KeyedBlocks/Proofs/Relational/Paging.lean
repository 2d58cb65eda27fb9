import KeyedBlocks.Proofs.Relational.Ascending

/-!
A cursor that reads an index page by page, while the index may change between the pages. What it has
come to so far and the page at hand are in ascending order, and the next page lies beyond them. A
key that stays in the index is never passed over: the cursor has come to it, or has it on the page
at hand, or the next page begins no later.
-/
namespace KeyedBlocks.Cursor

def isDue (c : Cursor) : Bool := !c.isOver && c.page.isEmpty && c.lower.isSome

def turnTo (c : Cursor) (page : List Bytes) : Cursor :=
  { c with page, lower := c.following page }

def came (step : Cursor × Bool) : Option Bytes := if step.2 then step.1.key? else none

/-- A step reads a page or does not have to, and then goes forward on the page at hand. -/
theorem nextStep_cases (c : Cursor) :
    (c.isOver = true ∧ c.nextStep = .done (c, false)) ∨
      (c.isOver = false ∧ c.isDue = false ∧ c.nextStep = .done c.advance) ∨
      ∃ lower, c.isOver = false ∧ c.page = [] ∧ c.lower = some lower ∧
        c.nextStep = .ask (lower, c.pageSize) c.receive := by
  cases hover : c.isOver with
  | true => exact Or.inl ⟨rfl, by simp [nextStep, hover]⟩
  | false =>
    refine Or.inr ?_
    cases hpage : c.page with
    | cons key rest =>
      exact Or.inl ⟨rfl, by simp [isDue, hpage], by simp [nextStep, hover, hpage]⟩
    | nil =>
      cases hlower : c.lower with
      | none =>
        refine Or.inl ⟨rfl, by simp [isDue, hlower], ?_⟩
        simp [nextStep, advance, hover, hpage, hlower]
      | some lower =>
        exact Or.inr ⟨lower, rfl, rfl, rfl, by simp [nextStep, hover, hpage, hlower]⟩

theorem next_cases (c : Cursor) (scan : Bytes → Nat → Except StoreError (List Bytes)) :
    (c.isOver = true ∧ c.next scan = (c, false)) ∨
      (c.isOver = false ∧ c.isDue = false ∧ c.next scan = c.advance) ∨
      ∃ lower, c.isOver = false ∧ c.page = [] ∧ c.lower = some lower ∧
        ((∃ e, scan lower c.pageSize = .error e ∧ c.next scan = (c.failWith e, false)) ∨
          ∃ page, scan lower c.pageSize = .ok page ∧ c.next scan = (c.turnTo page).advance) := by
  unfold next
  rcases c.nextStep_cases with
    ⟨hover, hstep⟩ | ⟨hover, hdue, hstep⟩ | ⟨lower, hover, hpage, hlower, hstep⟩
  · rw [hstep]
    exact Or.inl ⟨hover, rfl⟩
  · rw [hstep]
    exact Or.inr (Or.inl ⟨hover, hdue, rfl⟩)
  · rw [hstep, Step.answered]
    refine Or.inr (Or.inr ⟨lower, hover, hpage, hlower, ?_⟩)
    cases scan lower c.pageSize with
    | error e => exact Or.inl ⟨e, rfl, rfl⟩
    | ok page => exact Or.inr ⟨page, rfl, rfl⟩

theorem nextStep_of_isOver {c : Cursor} (hover : c.isOver = true) :
    c.nextStep = .done (c, false) :=
  if_pos hover

theorem next_of_isOver {c : Cursor} (hover : c.isOver = true)
    (scan : Bytes → Nat → Except StoreError (List Bytes)) : c.next scan = (c, false) := by
  rw [next, nextStep_of_isOver hover, Step.answered]

/-- Going forward on a page, a cursor comes to the first key of the page or finishes. -/
theorem advance_cases (c : Cursor) :
    (∃ key rest, c.page = key :: rest ∧ c.stem <+: key ∧
        c.advance = ({ c with page := rest, state := .positioned key }, true)) ∨
      ((∀ key rest, c.page = key :: rest → ¬ c.stem <+: key) ∧ c.advance = (c.finish, false)) := by
  cases hpage : c.page with
  | nil => exact Or.inr ⟨fun key rest heq => by simp at heq, by simp [advance, hpage]⟩
  | cons key rest =>
    by_cases hstem : c.stem <+: key
    · exact Or.inl ⟨key, rest, rfl, hstem, by simp [advance, hpage, hstem]⟩
    · refine Or.inr ⟨?_, by simp [advance, hpage, hstem]⟩
      rintro first others heq
      cases heq
      exact hstem

theorem finish_isOver (c : Cursor) : c.finish.isOver = true := by
  unfold finish isOver
  cases c.state <;> rfl

theorem key?_of_isOver {c : Cursor} (h : c.isOver = true) : c.key? = none := by
  unfold isOver at h
  unfold key?
  cases hstate : c.state <;> simp [hstate] at h ⊢

theorem key?_finish (c : Cursor) : c.finish.key? = none := key?_of_isOver c.finish_isOver

@[simp] theorem advance_stem (c : Cursor) : c.advance.1.stem = c.stem := by
  rcases c.advance_cases with ⟨key, rest, _, _, hadvance⟩ | ⟨_, hadvance⟩
  · rw [hadvance]
  · rw [hadvance]
    rfl

@[simp] theorem advance_pageSize (c : Cursor) : c.advance.1.pageSize = c.pageSize := by
  rcases c.advance_cases with ⟨key, rest, _, _, hadvance⟩ | ⟨_, hadvance⟩
  · rw [hadvance]
  · rw [hadvance]
    rfl

/-- Where a cursor stands that has come to the keys `seen`, all of them from `floor` on. -/
structure Follows (c : Cursor) (floor : Bytes) (seen : List Bytes) : Prop where
  ascending : (seen ++ c.page).Pairwise (· < ·)
  stemmed : ∀ key ∈ seen, c.stem <+: key
  floored : ∀ key ∈ seen ++ c.page, floor ≤ key
  beyond : ∀ lower, c.lower = some lower →
    floor ≤ lower ∧ ∀ key ∈ seen ++ c.page, key < lower
  unfailed : ∀ e, c.state ≠ .failed e
  emptied : c.isOver = true → c.page = [] ∧ c.lower = none

/-- The cursor has come to a key, or has not passed it yet. -/
def Keeps (c : Cursor) (seen : List Bytes) (key : Bytes) : Prop :=
  key ∈ seen ∨ key ∈ c.page ∨ ∃ lower, c.lower = some lower ∧ lower ≤ key

theorem create_follows (stem start : Bytes) (pageSize : Nat) :
    (create stem start pageSize).Follows (stem ++ start) [] where
  ascending := List.Pairwise.nil
  stemmed _ hmem := absurd hmem List.not_mem_nil
  floored _ hmem := absurd hmem List.not_mem_nil
  beyond lower hlower := by
    cases hlower
    exact ⟨List.le_refl _, fun key hmem => absurd hmem List.not_mem_nil⟩
  unfailed e heq := by cases heq
  emptied hover := by cases hover

section

variable {c : Cursor} {floor : Bytes} {seen : List Bytes}

/-- A finished cursor keeps nothing but what it has come to. -/
theorem Keeps.mem {key : Bytes} (h : c.Keeps seen key) (hpage : c.page = [])
    (hlower : c.lower = none) : key ∈ seen := by
  rcases h with hseen | hhand | ⟨lower, hsome, _⟩
  · exact hseen
  · rw [hpage] at hhand
    exact absurd hhand List.not_mem_nil
  · cases hlower.symm.trans hsome

/-- A key that the cursor has not come to yet is greater than those that it has come to. -/
theorem Follows.ahead (h : c.Follows floor seen) {key : Bytes} (hkeeps : c.Keeps seen key) :
    key ∈ seen ∨ ∀ earlier ∈ seen, earlier < key := by
  rcases hkeeps with hseen | hhand | ⟨lower, hlower, hle⟩
  · exact Or.inl hseen
  · exact Or.inr fun earlier hmem => (List.pairwise_append.1 h.ascending).2.2 earlier hmem key hhand
  · refine Or.inr fun earlier hmem => ?_
    exact Std.lt_of_lt_of_le ((h.beyond lower hlower).2 earlier (List.mem_append_left _ hmem)) hle

theorem Follows.finish (h : c.Follows floor seen) : c.finish.Follows floor seen where
  ascending := by
    have hseen := (List.pairwise_append.1 h.ascending).1
    simpa [Cursor.finish] using hseen
  stemmed := h.stemmed
  floored key hmem := by
    have hseen : key ∈ seen := by simpa [Cursor.finish] using hmem
    exact h.floored key (List.mem_append_left _ hseen)
  beyond lower hlower := by cases hlower
  unfailed e heq := by
    cases hstate : c.state with
    | failed e => exact h.unfailed e hstate
    | pending | positioned key | exhausted =>
      simp only [Cursor.finish, hstate] at heq
      cases heq
  emptied _ := ⟨rfl, rfl⟩

/-- The cursor comes to the first key of the page at hand. -/
theorem Follows.position {key : Bytes} {rest : List Bytes} (h : c.Follows floor seen)
    (hpage : c.page = key :: rest) (hstem : c.stem <+: key) :
    { c with page := rest, state := .positioned key }.Follows floor (seen ++ [key]) := by
  have hshift : (seen ++ [key]) ++ rest = seen ++ c.page := by simp [hpage]
  constructor
  case ascending => exact hshift ▸ h.ascending
  case stemmed =>
    intro other hmem
    rcases List.mem_append.1 hmem with hseen | hlast
    · exact h.stemmed other hseen
    · obtain rfl := List.mem_singleton.1 hlast
      exact hstem
  case floored => exact hshift ▸ h.floored
  case beyond => exact hshift ▸ h.beyond
  case unfailed =>
    intro e heq
    cases heq
  case emptied =>
    intro hover
    cases hover

theorem Follows.advance (h : c.Follows floor seen) :
    c.advance.1.Follows floor (seen ++ (came c.advance).toList) := by
  rcases c.advance_cases with ⟨key, rest, hpage, hstem, hadvance⟩ | ⟨_, hadvance⟩
  · rw [hadvance]
    exact h.position hpage hstem
  · rw [hadvance]
    simpa [came] using h.finish

/-- A key with the stem of the cursor is kept when the cursor goes forward. The cursor finishes
only at a key behind all keys with the stem. -/
theorem Follows.keeps_advance (h : c.Follows floor seen) (hfloor : c.stem ≤ floor) {key : Bytes}
    (hstem : c.stem <+: key) (hpage : c.page = [] → c.lower = none) (hkeeps : c.Keeps seen key) :
    c.advance.1.Keeps (seen ++ (came c.advance).toList) key := by
  rcases c.advance_cases with ⟨first, rest, hhand, _, hadvance⟩ | ⟨hend, hadvance⟩
  · rw [hadvance]
    rcases hkeeps with hseen | hmem | hlower
    · exact Or.inl (List.mem_append_left _ hseen)
    · rw [hhand] at hmem
      rcases List.mem_cons.1 hmem with rfl | hrest
      · exact Or.inl (List.mem_append_right _ (List.mem_singleton.2 rfl))
      · exact Or.inr (Or.inl hrest)
    · exact Or.inr (Or.inr hlower)
  · have hseen : key ∈ seen := by
      cases hhand : c.page with
      | nil => exact hkeeps.mem hhand (hpage hhand)
      | cons first rest =>
        -- The first key lies between the stem and `key`, and has not the stem.
        have hout := hend first rest hhand
        have hfirst : first ∈ seen ++ c.page := by simp [hhand]
        have hlow : c.stem ≤ first := List.le_trans hfloor (h.floored first hfirst)
        rcases hkeeps with hseen | hmem | ⟨lower, hlower, hle⟩
        · exact hseen
        · have hle : first ≤ key := by
            rw [hhand] at hmem
            rcases List.mem_cons.1 hmem with rfl | hrest
            · exact List.le_refl _
            · have hsorted := (List.pairwise_append.1 h.ascending).2.1
              rw [hhand] at hsorted
              exact List.le_of_lt ((List.pairwise_cons.1 hsorted).1 key hrest)
          exact absurd (KeyOrder.stem_of_between hlow hle hstem) hout
        · have hlt := Std.lt_of_lt_of_le ((h.beyond lower hlower).2 first hfirst) hle
          exact absurd (KeyOrder.stem_of_between hlow (List.le_of_lt hlt) hstem) hout
    rw [hadvance]
    exact Or.inl (List.mem_append_left _ hseen)

/-- A cursor that has finished has nothing at hand. -/
theorem advance_false (h : c.advance.2 = false) :
    c.advance.1.page = [] ∧ c.advance.1.lower = none ∧ c.advance.1.isOver = true := by
  rcases c.advance_cases with ⟨key, rest, _, _, hadvance⟩ | ⟨_, hadvance⟩
  · rw [hadvance] at h
    cases h
  · rw [hadvance]
    exact ⟨rfl, rfl, c.finish_isOver⟩

section Page

variable {keys page : List Bytes} {lower : Bytes} (hlower : c.lower = some lower)
  (hpage : KeyOrder.IsPage keys lower c.pageSize page)
include hlower hpage

theorem Follows.turnTo (h : c.Follows floor seen) (hover : c.isOver = false) :
    (c.turnTo page).Follows floor seen := by
  obtain ⟨hfloor, hbeyond⟩ := h.beyond lower hlower
  have hseen : ∀ key ∈ seen, key < lower := fun key hmem =>
    hbeyond key (List.mem_append_left _ hmem)
  have hsplit : ∀ key ∈ seen, ∀ later ∈ page, key < later := fun key hmem later hlater =>
    Std.lt_of_lt_of_le (hseen key hmem) (hpage.above later hlater)
  have hsorted : (seen ++ page).Pairwise (· < ·) :=
    List.pairwise_append.2 ⟨(List.pairwise_append.1 h.ascending).1, hpage.ascending, hsplit⟩
  have hfloored : ∀ key ∈ seen ++ page, floor ≤ key := by
    intro key hmem
    rcases List.mem_append.1 hmem with hold | hnew
    · exact h.floored key (List.mem_append_left _ hold)
    · exact List.le_trans hfloor (hpage.above key hnew)
  refine ⟨hsorted, h.stemmed, hfloored, ?_, h.unfailed, fun hdone => ?_⟩
  · intro next hnext
    obtain ⟨last, hlast, rfl⟩ : ∃ last, page.getLast? = some last ∧ successor last = next := by
      simp only [Cursor.turnTo, following] at hnext
      split at hnext
      · exact Option.map_eq_some_iff.1 hnext
      · cases hnext
    have hwhole : (seen ++ page).getLast? = some last := by simp [List.getLast?_append, hlast]
    have hend := lt_successor hsorted hwhole
    have hmem := List.mem_append_right seen (List.mem_of_getLast? hlast)
    exact ⟨List.le_of_lt (Std.lt_of_le_of_lt (hfloored last hmem) (hend last hmem)), hend⟩
  · have hnot : (c.turnTo page).isOver = false := hover
    cases hnot.symm.trans hdone

/-- A key of the index is kept when a page of the index is read. If it is not on the page, the page
is full and the next one begins no later than the key. -/
theorem Keeps.turnTo (hhand : c.page = []) (hsize : 0 < c.pageSize) {key : Bytes}
    (hmem : key ∈ keys) (h : c.Keeps seen key) : (c.turnTo page).Keeps seen key := by
  rcases h with hseen | hold | ⟨start, hstart, hle⟩
  · exact Or.inl hseen
  · rw [hhand] at hold
    exact absurd hold List.not_mem_nil
  · cases hlower.symm.trans hstart
    rcases hpage.rest key hmem hle with hnew | ⟨hfull, hpast⟩
    · exact Or.inr (Or.inl hnew)
    · have hsome : page ≠ [] := by
        rintro rfl
        simp only [List.length_nil] at hfull
        omega
      have hlast := List.getLast?_eq_some_getLast hsome
      refine Or.inr (Or.inr ⟨successor (page.getLast hsome), ?_, ?_⟩)
      · simp [Cursor.turnTo, following, hfull, hlast]
      · exact successor_le_iff.2 (hpast _ (List.getLast_mem hsome))

end Page

end

/-- What a step of a cursor does over an index with the given keys. -/
structure Stepped (c : Cursor) (floor : Bytes) (seen keys : List Bytes)
    (step : Cursor × Bool) : Prop where
  stem : step.1.stem = c.stem
  pageSize : step.1.pageSize = c.pageSize
  follows : step.1.Follows floor (seen ++ (came step).toList)
  /-- Keys of the index are kept. -/
  keeps : ∀ key ∈ keys, c.stem <+: key → c.Keeps seen key →
    step.1.Keeps (seen ++ (came step).toList) key
  /-- If a page is due, all that the cursor comes to and has at hand is in the index. -/
  read : c.isDue = true → ∀ key, key ∈ step.1.page ∨ came step = some key → key ∈ keys
  /-- Otherwise it was at hand before. -/
  held : c.isDue = false → ∀ key, key ∈ step.1.page ∨ came step = some key → key ∈ c.page
  ended : step.2 = false → step.1.page = [] ∧ step.1.lower = none ∧ step.1.isOver = true
  found : step.2 = true → ∃ key, came step = some key

variable {c : Cursor} {floor : Bytes} {seen keys : List Bytes}

/-- What is at hand after going forward, and what the cursor has come to, was at hand before. -/
theorem mem_page_of_advance {key : Bytes}
    (h : key ∈ c.advance.1.page ∨ came c.advance = some key) : key ∈ c.page := by
  rcases c.advance_cases with ⟨first, rest, hpage, _, hadvance⟩ | ⟨_, hadvance⟩
  · rw [hadvance] at h
    rw [hpage]
    rcases h with hrest | hfirst
    · exact List.mem_cons_of_mem first hrest
    · cases hfirst
      exact List.mem_cons_self ..
  · rw [hadvance] at h
    rcases h with hmem | hcame
    · exact absurd hmem List.not_mem_nil
    · cases hcame

theorem came_of_advance (h : c.advance.2 = true) : ∃ key, came c.advance = some key := by
  rcases c.advance_cases with ⟨key, rest, _, _, hadvance⟩ | ⟨_, hadvance⟩
  · exact ⟨key, by rw [hadvance]; rfl⟩
  · rw [hadvance] at h
    cases h

/-- A step that goes forward on the page of `turned`: on the one at hand, or on one just read. -/
theorem Follows.stepped {turned : Cursor} (h : turned.Follows floor seen)
    (hstem : turned.stem = c.stem) (hfloor : c.stem ≤ floor) (hsize : turned.pageSize = c.pageSize)
    (hlast : turned.page = [] → turned.lower = none)
    (hkeeps : ∀ key ∈ keys, c.Keeps seen key → turned.Keeps seen key)
    (hread : c.isDue = true → ∀ key ∈ turned.page, key ∈ keys)
    (hheld : c.isDue = false → ∀ key ∈ turned.page, key ∈ c.page) :
    c.Stepped floor seen keys turned.advance where
  stem := turned.advance_stem.trans hstem
  pageSize := turned.advance_pageSize.trans hsize
  follows := h.advance
  keeps key hmem hkey hbefore := by
    rw [← hstem] at hfloor hkey
    exact h.keeps_advance hfloor hkey hlast (hkeeps key hmem hbefore)
  read hdue key hkey := hread hdue key (mem_page_of_advance hkey)
  held hdue key hkey := hheld hdue key (mem_page_of_advance hkey)
  ended := advance_false
  found := came_of_advance

/-- A cursor that is over stays as it is. -/
theorem Follows.stepped_over (h : c.Follows floor seen) (hover : c.isOver = true) :
    c.Stepped floor seen keys (c, false) where
  stem := rfl
  pageSize := rfl
  follows := by simpa [came] using h
  keeps key _ _ hkeeps := by simpa [came] using hkeeps
  read hdue := by simp [isDue, hover] at hdue
  held _ key hkey := by
    rcases hkey with hmem | hcame
    · exact hmem
    · cases hcame
  ended _ := by
    obtain ⟨hhand, hlower⟩ := h.emptied hover
    exact ⟨hhand, hlower, hover⟩
  found hfound := by cases hfound

/-- A step over an index that can be read. -/
theorem Follows.next {scan : Bytes → Nat → Except StoreError (List Bytes)}
    (h : c.Follows floor seen) (hfloor : c.stem ≤ floor) (hsize : 0 < c.pageSize)
    (hscan : ∀ lower limit, ∃ page, scan lower limit = .ok page ∧
      KeyOrder.IsPage keys lower limit page) : c.Stepped floor seen keys (c.next scan) := by
  rcases c.next_cases scan with
    ⟨hover, hnext⟩ | ⟨hopen, hdue, hnext⟩ | ⟨lower, hopen, hhand, hlower, hread⟩
  · rw [hnext]
    exact h.stepped_over hover
  · have hlast : c.page = [] → c.lower = none := by
      intro hhand
      cases hlower : c.lower with
      | none => rfl
      | some lower => simp [isDue, hopen, hhand, hlower] at hdue
    rw [hnext]
    refine h.stepped rfl hfloor rfl hlast (fun _ _ hkeeps => hkeeps) (fun hsome => ?_)
      fun _ _ hmem => hmem
    cases hdue.symm.trans hsome
  · obtain ⟨page, hok, hpage⟩ := hscan lower c.pageSize
    obtain ⟨e, herror, _⟩ | ⟨_, hsame, hnext⟩ := hread
    · cases hok.symm.trans herror
    cases hok.symm.trans hsame
    have hlast : (c.turnTo page).page = [] → (c.turnTo page).lower = none := by
      intro hempty
      obtain rfl : page = [] := hempty
      show (if _ then _ else _) = _
      split <;> rfl
    rw [hnext]
    refine (h.turnTo hlower hpage hopen).stepped rfl hfloor rfl hlast
      (fun key hmem => Keeps.turnTo hlower hpage hhand hsize hmem) (fun _ => hpage.indexed)
      fun hdue => ?_
    simp [isDue, hopen, hhand, hlower] at hdue

end KeyedBlocks.Cursor
