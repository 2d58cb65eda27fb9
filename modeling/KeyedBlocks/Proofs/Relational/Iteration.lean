import KeyedBlocks.Proofs.Places
import KeyedBlocks.Proofs.Relational.Paging
import KeyedBlocks.Proofs.Sessions.Indistinguishable
import Mathlib.Data.List.Nodup

/-!
Iteration over the keys of a relational database while others write to it. Whatever puts, deletes
and batches come between the steps of a cursor, it comes to keys in ascending order, to each that
stays in the index once, and to none that was not there when its page was read.
-/
namespace KeyedBlocks

/-- The table of preimages is there, with one row for each key. -/
def Tables.Indexed (t : Tables) : Prop :=
  ∃ entries, t.preimages = .rows entries ∧ (entries.map Prod.fst).Nodup

theorem Tables.Indexed.exec {guards : Guards} {t t' : Tables} {statement : Statement}
    (h : t.Indexed) (hexec : Tables.exec guards t statement = .ok t') : t'.Indexed := by
  obtain ⟨entries, hrows, hkeys⟩ := h
  cases statement with
  | upsertBlock a value =>
    obtain ⟨_, _, rfl⟩ := exec_upsertBlock hexec
    exact ⟨entries, hrows, hkeys⟩
  | deleteBlock a =>
    obtain ⟨_, _, rfl⟩ := exec_deleteBlock hexec
    exact ⟨entries, hrows, hkeys⟩
  | upsertPreimage key a =>
    simp only [Tables.exec, preimageRows, hrows] at hexec
    cases hexec
    exact ⟨_, rfl, Assoc.insert_keys_nodup key a hkeys⟩
  | deletePreimage key =>
    simp only [Tables.exec, preimageRows, hrows] at hexec
    cases hexec
    exact ⟨_, rfl, Assoc.erase_keys_nodup key hkeys⟩
  | deletePreimagesOf a =>
    simp only [Tables.exec, hrows] at hexec
    cases hexec
    exact ⟨_, rfl, hkeys.sublist (List.filter_sublist.map Prod.fst)⟩

theorem Tables.Indexed.execAll {guards : Guards} {t t' : Tables} {statements : List Statement}
    (h : t.Indexed) (hexec : Tables.execAll guards t statements = .ok t') : t'.Indexed := by
  induction statements generalizing t with
  | nil =>
    cases hexec
    exact h
  | cons statement rest ih =>
    obtain ⟨next, hfirst, hrest⟩ := execAll_cons.1 hexec
    exact ih (h.exec hfirst) hrest

namespace Relational

def keys (d : Relational) : List Bytes :=
  match d.tables.preimages with
  | .rows entries => entries.map Prod.fst
  | .missing | .foreign => []

/-- A database whose index can be scanned. -/
structure Scannable (d : Relational) : Prop where
  isOpen : d.isOpen = true
  indexed : d.tables.Indexed

theorem fresh_scannable (maxConnections : Nat) : (fresh maxConnections).Scannable where
  isOpen := rfl
  indexed := ⟨[], rfl, List.nodup_nil⟩

theorem Scannable.scan {d : Relational} (h : d.Scannable) (lower : Bytes) (limit : Nat) :
    ∃ page, d.scan lower limit = .ok page ∧ KeyOrder.IsPage d.keys lower limit page := by
  obtain ⟨entries, hrows, hkeys⟩ := h.indexed
  obtain ⟨page, hscan, hpage⟩ := Tables.scan_isPage hrows hkeys lower limit
  refine ⟨page, ?_, ?_⟩
  · simp [Relational.scan, query, h.isOpen, hscan, lift]
  · simpa [keys, hrows] using hpage

/-- What a scan finds is in the index. -/
theorem mem_keys_of_scan {d : Relational} (h : d.tables.Indexed) {lower : Bytes} {limit : Nat}
    {page : List Bytes} (hscan : d.scan lower limit = .ok page) : ∀ key ∈ page, key ∈ d.keys := by
  cases hopen : d.isOpen with
  | true =>
    obtain ⟨found, hfound, hpage⟩ := Scannable.scan ⟨hopen, h⟩ lower limit
    cases hscan.symm.trans hfound
    exact hpage.indexed
  | false =>
    simp only [Relational.scan, query, hopen] at hscan
    cases hscan

/-- Writes leave the index fit to be scanned, whether they are carried out or refused. -/
theorem Scannable.transaction {d : Relational} (h : d.Scannable) (statements : List Statement) :
    (d.transaction statements).1.Scannable := by
  unfold Relational.transaction
  split
  · exact h
  · split
    · exact h
    · cases hexec : d.tables.execAll d.guards statements with
      | error fault => exact h
      | ok tables => exact ⟨h.isOpen, h.indexed.execAll hexec⟩

theorem Scannable.run {s : Site Relational} (h : s.backend.Scannable)
    (plan : List (Effect (List Statement))) : (s.run plan).1.backend.Scannable := by
  unfold Site.run
  induction plan generalizing s with
  | nil => exact h
  | cons effect rest ih =>
    have hstep : (s.step effect).1.backend.Scannable := by
      cases effect with
      | perform statements => exact h.transaction statements
      | forget a => exact h
    rw [runSteps]
    cases hresult : s.step effect with
    | mk next result =>
      rw [hresult] at hstep
      cases result with
      | ok => exact ih hstep
      | error e => exact hstep

end Relational

/-- A cursor in use at a site, with the keys that it has come to. -/
structure Iteration where
  site : Site Relational
  cursor : Cursor
  yielded : List Bytes

namespace Iteration

inductive Event
  | write (request : Request)
  | next

def next (s : Iteration) : Cursor × Bool := SqlDatabase.nextKey s.site.backend s.cursor

def step (s : Iteration) : Event → Iteration
  | .write request => { s with site := (s.site.make request).1 }
  | .next => { s with cursor := s.next.1, yielded := s.yielded ++ (Cursor.came s.next).toList }

def run (s : Iteration) (events : List Event) : Iteration := events.foldl step s

def Undisturbed (events : List Event) : Prop := ∀ event ∈ events, event = .next

theorem Undisturbed.before {before after : List Event} (h : Undisturbed (before ++ after)) :
    Undisturbed before := fun event hmem => h event (List.mem_append_left _ hmem)

theorem Undisturbed.concat {events : List Event} (h : Undisturbed events) :
    Undisturbed (events ++ [.next]) := by
  intro event hmem
  rcases List.mem_append.1 hmem with hold | hlast
  · exact h event hold
  · exact List.mem_singleton.1 hlast

def keys (s : Iteration) : List Bytes := s.site.backend.keys

/-- An iteration over the keys of a database that was empty before some writes. -/
def start (d : SqlDatabase) (now : Nat) (writes : List Request) (stem start : Bytes) :
    Iteration where
  site := writes.foldl (fun s request => (s.make request).1) (d.session now).site
  cursor := d.iterate stem start
  yielded := []

@[simp] theorem run_nil (s : Iteration) : s.run [] = s := rfl

@[simp] theorem run_concat (s : Iteration) (events : List Event) (event : Event) :
    s.run (events ++ [event]) = (s.run events).step event := List.foldl_append

/-- Of the steps of the cursor, the last one that read a page came after `early`. -/
def LastRead (s : Iteration) (events early : List Event) : Prop :=
  ∃ rest, events = early ++ .next :: rest ∧ (s.run early).cursor.isDue = true ∧
    ∀ between later, rest = between ++ .next :: later →
      (s.run (early ++ .next :: between)).cursor.isDue = false

/-- A key that an iteration from `start` on over keys with `stem` is to come to. -/
def Matches (stem start key : Bytes) : Prop := stem <+: key ∧ stem ++ start ≤ key

instance (stem start key : Bytes) : Decidable (Matches stem start key) :=
  inferInstanceAs (Decidable (_ ∧ _))

def matching (s : Iteration) (stem start : Bytes) : List Bytes :=
  KeyOrder.sort (s.keys.filter (Matches stem start ·))

/-- What holds of an iteration all the time. -/
structure Sound (s : Iteration) (stem start : Bytes) : Prop where
  scannable : s.site.backend.Scannable
  stem_eq : s.cursor.stem = stem
  pageSize : 0 < s.cursor.pageSize
  follows : s.cursor.Follows (stem ++ start) s.yielded

theorem start_sound (d : SqlDatabase) (now : Nat) (writes : List Request) (stem start : Bytes) :
    (Iteration.start d now writes stem start).Sound stem start where
  scannable := by
    unfold Iteration.start
    have hfresh : (d.session now).site.backend.Scannable := Relational.fresh_scannable _
    generalize (d.session now).site = s at hfresh ⊢
    induction writes generalizing s with
    | nil => exact hfresh
    | cons request rest ih => exact ih _ (hfresh.run (request.plan Relational))
  stem_eq := rfl
  pageSize := Nat.lt_of_lt_of_le Nat.one_pos (Nat.le_max_right ..)
  follows := Cursor.create_follows stem start d.config.pageSize

section Run

variable {s : Iteration} {stem start : Bytes} (h : s.Sound stem start)
include h

theorem Sound.stepped :
    s.cursor.Stepped (stem ++ start) s.yielded s.keys s.next := by
  have hstem : s.cursor.stem ≤ stem ++ start := by
    rw [h.stem_eq]
    exact List.le_append_left
  exact h.follows.next hstem h.pageSize h.scannable.scan

theorem Sound.step (event : Event) : (s.step event).Sound stem start := by
  cases event with
  | write request =>
    exact ⟨h.scannable.run (request.plan Relational), h.stem_eq, h.pageSize, h.follows⟩
  | next =>
    have hstepped := h.stepped
    refine ⟨h.scannable, hstepped.stem.trans h.stem_eq, ?_, hstepped.follows⟩
    exact Nat.lt_of_lt_of_eq h.pageSize hstepped.pageSize.symm

theorem Sound.run (events : List Event) : (s.run events).Sound stem start := by
  induction events using List.reverseRecOn with
  | nil => exact h
  | append_singleton events event ih =>
    rw [run_concat]
    exact ih.step event

/-- A key that is in the index whenever the cursor is stepped is kept. -/
theorem Sound.keeps_run {events : List Event} {key : Bytes} (hstem : stem <+: key)
    (hkeeps : s.cursor.Keeps s.yielded key)
    (hmem : ∀ before after, events = before ++ .next :: after → key ∈ (s.run before).keys) :
    (s.run events).cursor.Keeps (s.run events).yielded key := by
  induction events using List.reverseRecOn with
  | nil => exact hkeeps
  | append_singleton events event ih =>
    have hbefore := ih fun before after hsplit => hmem before (after ++ [event]) (by simp [hsplit])
    rw [run_concat]
    cases event with
    | write request => exact hbefore
    | next =>
      have hsound := h.run events
      exact hsound.stepped.keeps key (hmem events [] rfl) (hsound.stem_eq ▸ hstem) hbefore

omit h in
theorem LastRead.concat {events early : List Event} {event : Event} (h : s.LastRead events early)
    (hidle : event = .next → (s.run events).cursor.isDue = false) :
    s.LastRead (events ++ [event]) early := by
  obtain ⟨rest, rfl, hdue, hlast⟩ := h
  refine ⟨rest ++ [event], by simp, hdue, fun between later hsplit => ?_⟩
  rcases split_concat_cases hsplit with ⟨rfl, rfl, _⟩ | ⟨others, _, hrest⟩
  · exact hidle rfl
  · exact hlast between others hrest

omit h in
theorem lastRead_concat {events : List Event} (hdue : (s.run events).cursor.isDue = true) :
    s.LastRead (events ++ [.next]) events :=
  ⟨[], rfl, hdue, fun between later hsplit => by simp at hsplit⟩

/-- A key is in the index as it was when the page was read that the cursor has at hand after some
events. -/
def ReadFrom (s : Iteration) (events : List Event) (key : Bytes) : Prop :=
  ∃ early, s.LastRead events early ∧ key ∈ (s.run early).keys

/-- If all keys at hand are from the index, so are those at hand after a step, and the key that the
step comes to. -/
theorem Sound.read_next {events : List Event}
    (hpage : ∀ key ∈ (s.run events).cursor.page, s.ReadFrom events key) {key : Bytes}
    (hkey : key ∈ (s.run events).next.1.page ∨ Cursor.came (s.run events).next = some key) :
    s.ReadFrom (events ++ [.next]) key := by
  have hstepped := (h.run events).stepped
  cases hdue : (s.run events).cursor.isDue with
  | true => exact ⟨events, lastRead_concat hdue, hstepped.read hdue key hkey⟩
  | false =>
    obtain ⟨early, hlast, hmem⟩ := hpage key (hstepped.held hdue key hkey)
    exact ⟨early, hlast.concat fun _ => hdue, hmem⟩

theorem Sound.page_read {events : List Event} (hpage : s.cursor.page = []) :
    ∀ key ∈ (s.run events).cursor.page, s.ReadFrom events key := by
  induction events using List.reverseRecOn with
  | nil =>
    intro key hmem
    rw [run_nil, hpage] at hmem
    exact absurd hmem List.not_mem_nil
  | append_singleton events event ih =>
    intro key hmem
    rw [run_concat] at hmem
    cases event with
    | write request =>
      obtain ⟨early, hlast, hkey⟩ := ih key hmem
      exact ⟨early, hlast.concat (fun heq => by cases heq), hkey⟩
    | next => exact h.read_next ih (Or.inl hmem)

theorem Sound.ascending (events : List Event) : (s.run events).yielded.Pairwise (· < ·) :=
  (List.pairwise_append.1 (h.run events).follows.ascending).1

theorem Sound.matches {events : List Event} {key : Bytes} (hmem : key ∈ (s.run events).yielded) :
    Matches stem start key := by
  have hsound := h.run events
  refine ⟨?_, hsound.follows.floored key (List.mem_append_left _ hmem)⟩
  have hstem := hsound.follows.stemmed key hmem
  rwa [hsound.stem_eq] at hstem

/-- Each step has come to a key until the cursor was over. -/
theorem Sound.length_yielded {events : List Event} (hnext : Undisturbed events)
    (hnone : s.yielded = []) :
    (s.run events).yielded.length = events.length ∨
      ((s.run events).yielded.length ≤ events.length ∧ (s.run events).cursor.isOver = true) := by
  induction events using List.reverseRecOn with
  | nil => exact Or.inl (by simp [hnone])
  | append_singleton events event ih =>
    have hbefore := ih hnext.before
    obtain rfl := hnext event (by simp)
    have hstepped := (h.run events).stepped
    have hshort : (Cursor.came (s.run events).next).toList.length ≤ 1 := by
      cases Cursor.came (s.run events).next <;> simp
    simp only [run_concat, Iteration.step, List.length_append, List.length_singleton]
    cases hfound : (s.run events).next.2 with
    | false =>
      refine Or.inr ⟨?_, (hstepped.ended hfound).2.2⟩
      rcases hbefore with hall | ⟨hsome, _⟩ <;> omega
    | true =>
      obtain ⟨key, hcame⟩ := hstepped.found hfound
      rcases hbefore with hall | ⟨_, hover⟩
      · exact Or.inl (by simp [hcame, hall])
      · simp [next, SqlDatabase.nextKey, Cursor.next_of_isOver hover] at hfound

end Run

/-- Every key was come to at some step. -/
theorem came_of_yielded {s : Iteration} {events : List Event} {key : Bytes}
    (hmem : key ∈ (s.run events).yielded) :
    key ∈ s.yielded ∨ ∃ before after, events = before ++ .next :: after ∧
      Cursor.came (s.run before).next = some key := by
  induction events using List.reverseRecOn with
  | nil => exact Or.inl hmem
  | append_singleton events event ih =>
    have hearlier : key ∈ (s.run events).yielded → key ∈ s.yielded ∨
        ∃ before after, events ++ [event] = before ++ .next :: after ∧
          Cursor.came (s.run before).next = some key := by
      intro hold
      rcases ih hold with hfirst | ⟨before, after, rfl, hcame⟩
      · exact Or.inl hfirst
      · exact Or.inr ⟨before, after ++ [event], by simp, hcame⟩
    rw [run_concat] at hmem
    cases event with
    | write request => exact hearlier hmem
    | next =>
      rcases List.mem_append.1 hmem with hold | hnew
      · exact hearlier hold
      · exact Or.inr ⟨events, [], rfl, by simpa using hnew⟩

/-- While nobody writes the site stays the same. -/
theorem site_run {s : Iteration} {events : List Event} (hnext : Undisturbed events) :
    (s.run events).site = s.site := by
  induction events using List.reverseRecOn with
  | nil => rfl
  | append_singleton events event ih =>
    obtain rfl := hnext event (by simp)
    rw [run_concat]
    exact ih hnext.before

/-- An iteration whose cursor has not been stepped yet. -/
structure Begun (s : Iteration) (stem start : Bytes) : Prop extends s.Sound stem start where
  yielded : s.yielded = []
  page : s.cursor.page = []
  lower : s.cursor.lower = some (stem ++ start)

theorem mem_matching {s : Iteration} {stem start key : Bytes} :
    key ∈ s.matching stem start ↔ key ∈ s.keys ∧ Matches stem start key := by
  simp [matching, KeyOrder.mem_sort]

section Run

variable {s : Iteration} {stem start : Bytes} (h : s.Begun stem start)
include h

theorem Begun.keeps {key : Bytes} (hle : stem ++ start ≤ key) : s.cursor.Keeps s.yielded key :=
  Or.inr (Or.inr ⟨stem ++ start, h.lower, hle⟩)

theorem Begun.matching_ascending : (s.matching stem start).Pairwise (· < ·) := by
  obtain ⟨entries, hrows, hkeys⟩ := h.scannable.indexed
  have hnodup : s.keys.Nodup := by simpa [keys, Relational.keys, hrows] using hkeys
  exact KeyOrder.sort_ascending (hnodup.filter _)

/-- When there is no further key, the cursor has come to every matching key that was in the index
at each of its steps. -/
theorem Begun.complete {events : List Event} (hdone : (s.run events).next.2 = false) {key : Bytes}
    (hmatch : Matches stem start key)
    (hmem : ∀ before after, events ++ [.next] = before ++ .next :: after →
      key ∈ (s.run before).keys) : key ∈ (s.run events).yielded := by
  have hsound := h.toSound.run events
  have hearlier : ∀ before after, events = before ++ .next :: after → key ∈ (s.run before).keys :=
    fun before after hsplit => hmem before (after ++ [.next]) (by simp [hsplit])
  have hkeeps := h.toSound.keeps_run hmatch.1 (h.keeps hmatch.2) hearlier
  have hlast := hsound.stepped.keeps key (hmem events [] rfl) (hsound.stem_eq ▸ hmatch.1) hkeeps
  obtain ⟨hpage, hlower, _⟩ := hsound.stepped.ended hdone
  simpa [Cursor.came, hdone] using hlast.mem hpage hlower

section Undisturbed

variable {events : List Event} (hnext : Undisturbed events)
include hnext

theorem Begun.mem_matching_of_yielded {key : Bytes} (hmem : key ∈ (s.run events).yielded) :
    key ∈ s.matching stem start := by
  refine mem_matching.2 ⟨?_, h.toSound.matches hmem⟩
  rcases came_of_yielded hmem with hnone | ⟨before, after, rfl, hcame⟩
  · rw [h.yielded] at hnone
    exact absurd hnone List.not_mem_nil
  · have hread := h.toSound.read_next (h.toSound.page_read h.page) (Or.inr hcame)
    obtain ⟨early, ⟨rest, hsplit, _⟩, hkey⟩ := hread
    have hearly : Undisturbed early := by
      have hread := hnext.before.concat
      rw [hsplit] at hread
      exact hread.before
    rwa [keys, site_run hearly] at hkey

/-- While nobody writes, the cursor comes to the matching keys one after the other. -/
theorem Begun.yielded_prefix : (s.run events).yielded <+: s.matching stem start := by
  refine KeyOrder.prefix_of_ascending (h.toSound.ascending events) h.matching_ascending
    (fun key => h.mem_matching_of_yielded hnext) fun key hmem => ?_
  obtain ⟨hkey, hmatch⟩ := mem_matching.1 hmem
  have hindex : ∀ before after, events = before ++ .next :: after → key ∈ (s.run before).keys := by
    rintro before after rfl
    rwa [keys, site_run hnext.before]
  have hkeeps := h.toSound.keeps_run hmatch.1 (h.keeps hmatch.2) hindex
  exact (h.toSound.run events).follows.ahead hkeeps

/-- While nobody writes, it is through with the matching keys when there is no further one. -/
theorem Begun.yielded_of_done (hdone : (s.run events).next.2 = false) :
    (s.run events).yielded = s.matching stem start := by
  refine KeyOrder.ascending_ext (h.toSound.ascending events) h.matching_ascending fun key => ?_
  refine ⟨h.mem_matching_of_yielded hnext, fun hmem => ?_⟩
  obtain ⟨hkey, hmatch⟩ := mem_matching.1 hmem
  refine h.complete hdone hmatch fun before after hsplit => ?_
  have hmore := hnext.concat
  rw [hsplit] at hmore
  rwa [keys, site_run hmore.before]

theorem Begun.yielded_eq_take :
    (s.run events).yielded = (s.matching stem start).take events.length := by
  rcases h.toSound.length_yielded hnext h.yielded with hlength | ⟨hlength, hover⟩
  · rw [← hlength]
    exact List.prefix_iff_eq_take.1 (h.yielded_prefix hnext)
  · have hdone : (s.run events).next.2 = false := by
      simp [next, SqlDatabase.nextKey, Cursor.next_of_isOver hover]
    have hall := h.yielded_of_done hnext hdone
    rw [hall] at hlength ⊢
    exact (List.take_of_length_le hlength).symm

theorem Begun.next_iff :
    (s.run events).next.2 = true ↔ events.length < (s.matching stem start).length := by
  constructor
  · intro hfound
    obtain ⟨key, hcame⟩ := (h.toSound.run events).stepped.found hfound
    have hbefore := congrArg List.length (h.yielded_eq_take hnext)
    have hafter := congrArg List.length (h.yielded_eq_take hnext.concat)
    simp only [run_concat, Iteration.step, hcame, List.length_append, List.length_take,
      Option.toList_some, List.length_singleton] at hbefore hafter
    omega
  · intro hlength
    cases hdone : (s.run events).next.2 with
    | true => rfl
    | false =>
      have hall := h.yielded_of_done hnext hdone
      have htake := congrArg List.length (h.yielded_eq_take hnext)
      simp only [hall, List.length_take] at htake
      omega

end Undisturbed

end Run

/-- What an iteration comes to that begins with `s`, whatever happens while it goes on. -/
structure Iterates (s : Iteration) (stem start : Bytes) (events : List Event) : Prop where
  /-- The keys are in strictly ascending order. -/
  ascending : (s.run events).yielded.Pairwise (· < ·)
  /-- They have the stem, and none comes before the stem and `start`. -/
  matching : ∀ key ∈ (s.run events).yielded, stem <+: key ∧ stem ++ start ≤ key
  /-- Each was in the index when the page was read that it was on. -/
  read : ∀ before after key, events = before ++ .next :: after →
    Cursor.came (s.run before).next = some key → s.ReadFrom (before ++ [.next]) key
  /-- When there is no further key, every matching key that was in the index at each step was
  yielded just once. -/
  complete : (s.run events).next.2 = false → ∀ key, stem <+: key → stem ++ start ≤ key →
    (∀ before after, events ++ [.next] = before ++ .next :: after → key ∈ (s.run before).keys) →
    (s.run events).yielded.count key = 1
  /-- No step fails. -/
  unfailed : (s.run events).cursor.error? = none
  /-- If nobody writes, each step comes to the next one of the matching keys in order, until there
  are no more; how large the pages are makes no difference. -/
  undisturbed : Undisturbed events →
    (s.run events).yielded = (s.matching stem start).take events.length ∧
      ((s.run events).next.2 = true ↔ events.length < (s.matching stem start).length)

/-- Iteration over a database, through any writes. -/
theorem iterates_run (d : SqlDatabase) (now : Nat) (writes : List Request) (stem start : Bytes)
    (events : List Event) :
    Iterates (Iteration.start d now writes stem start) stem start events := by
  have hbegun : (Iteration.start d now writes stem start).Begun stem start :=
    ⟨start_sound d now writes stem start, rfl, rfl, rfl⟩
  have hsound := hbegun.toSound
  refine ⟨hsound.ascending events, fun key => hsound.matches, ?read, ?complete, ?unfailed,
    fun hnext => ⟨hbegun.yielded_eq_take hnext, hbegun.next_iff hnext⟩⟩
  case read =>
    rintro before after key rfl hcame
    exact hsound.read_next (hsound.page_read hbegun.page) (Or.inr hcame)
  case complete =>
    intro hdone key hstem hle hindex
    have hmem := hbegun.complete hdone ⟨hstem, hle⟩ hindex
    exact List.count_eq_one_of_mem (KeyOrder.nodup_of_ascending (hsound.ascending events)) hmem
  case unfailed =>
    have hunfailed := (hsound.run events).follows.unfailed
    unfold Cursor.error?
    split
    · rename_i e hstate
      exact absurd hstate (hunfailed e)
    · rfl

end Iteration

end KeyedBlocks
