import KeyedBlocks.Proofs.Relational.Index
import KeyedBlocks.Proofs.Relational.Walk

/-!
The values at a cursor. The index records with each key the address that it was put to last, where
its block is; a cursor has the key alone, and reads at the address that the raw key derives to.
Where both are the same address, the value at the cursor is the block that the index leads to.
Otherwise it is whatever else is at the derived address, and if there is nothing the cursor has
failed. Keys that were written raw are recorded under the addresses that they derive to.
-/
namespace KeyedBlocks

namespace Relational

/-- The address that the index records for a key. -/
def addressOf? (d : Relational) (key : Bytes) : Option Address :=
  match d.tables.preimages with
  | .rows entries => Assoc.find? key entries
  | .missing | .foreign => none

def blockOf? (d : Relational) (key : Bytes) : Option Bytes := (d.addressOf? key).bind d.blockAt?

def LeftBy (d : Relational) (log : List Deed) : Prop :=
  ∃ rows entries, d.tables = ⟨some rows, .rows entries⟩ ∧ KeyedBlocks.LeftBy rows entries log

section LeftBy

variable {d : Relational} {log : List Deed} (h : d.LeftBy log)
include h

theorem LeftBy.addressOf?_iff {key : Bytes} {a : Address} :
    d.addressOf? key = some a ↔ LeadsTo log key a := by
  obtain ⟨rows, entries, htables, hleft⟩ := h
  rw [← hleft.entries_iff]
  simp only [addressOf?, htables]
  exact ⟨Assoc.mem_of_find?_eq_some, Assoc.find?_eq_some_of_mem hleft.keys⟩

theorem LeftBy.blockAt?_iff {a : Address} {value : Bytes} :
    d.blockAt? a = some value ↔ Stored log a value := by
  obtain ⟨rows, entries, htables, hleft⟩ := h
  rw [← hleft.rows_iff]
  simp only [blockAt?, htables, Option.bind_some]
  exact ⟨Assoc.mem_of_find?_eq_some, Assoc.find?_eq_some_of_mem hleft.addresses⟩

theorem LeftBy.exists_blockAt? {key : Bytes} {a : Address} (haddress : d.addressOf? key = some a) :
    ∃ value, d.blockAt? a = some value := by
  have hleads := h.addressOf?_iff.1 haddress
  obtain ⟨value, hstored⟩ := exists_stored_iff.2 ⟨key, (leadsTo_iff.1 hleads).1⟩
  exact ⟨value, h.blockAt?_iff.2 hstored⟩

theorem LeftBy.exists_addressOf? {key : Bytes} (hmem : key ∈ d.keys) :
    ∃ a, d.addressOf? key = some a := by
  obtain ⟨rows, entries, htables, hleft⟩ := h
  simp only [keys, htables, List.mem_map] at hmem
  obtain ⟨⟨_, a⟩, hentry, rfl⟩ := hmem
  refine ⟨a, ?_⟩
  simp only [addressOf?, htables]
  exact Assoc.find?_eq_some_of_mem hleft.keys hentry

theorem LeftBy.indexed : d.tables.Indexed := by
  obtain ⟨rows, entries, htables, hleft⟩ := h
  exact ⟨entries, by rw [htables], hleft.keys⟩

theorem LeftBy.read (hopen : d.isOpen = true) (a : Address) : d.read a = .ok (d.blockAt? a) := by
  obtain ⟨rows, entries, htables, _⟩ := h
  simp only [Relational.read, query, hopen, if_true, Tables.read, Tables.blockRows, blockAt?,
    htables]
  rfl

end LeftBy

end Relational

namespace Cursor

variable {c : Cursor} {key : Bytes}

/-- The keys that a cursor has at hand, and the one it is at, are among given ones. -/
structure Drawn (c : Cursor) (keys : List Bytes) : Prop where
  page : ∀ key ∈ c.page, key ∈ keys
  position : ∀ key, c.key? = some key → key ∈ keys

theorem drawn_finish (c : Cursor) (keys : List Bytes) : c.finish.Drawn keys where
  page key hmem := absurd hmem List.not_mem_nil
  position key hkey := by cases c.key?_finish.symm.trans hkey

theorem drawn_advance {keys : List Bytes} (hpage : ∀ key ∈ c.page, key ∈ keys) :
    c.advance.1.Drawn keys := by
  rcases c.advance_cases with ⟨first, rest, hfirst, _, hadvance⟩ | ⟨_, hadvance⟩
  · rw [hadvance]
    rw [hfirst] at hpage
    refine ⟨fun key hmem => hpage key (List.mem_cons_of_mem _ hmem), fun key hkey => ?_⟩
    obtain rfl : first = key := Option.some.inj hkey
    exact hpage first (List.mem_cons_self ..)
  · rw [hadvance]
    exact drawn_finish c keys

/-- A step draws on the page at hand, or on the one that it reads. -/
theorem drawn_next {keys : List Bytes} {scan : Bytes → Nat → Except StoreError (List Bytes)}
    (hpage : ∀ key ∈ c.page, key ∈ keys)
    (hscan : ∀ lower limit page, scan lower limit = .ok page → ∀ key ∈ page, key ∈ keys) :
    (c.next scan).1.Drawn keys := by
  rcases c.next_cases scan with ⟨hover, hnext⟩ | ⟨_, _, hnext⟩ | ⟨lower, _, _, _, hread⟩
  · rw [hnext]
    refine ⟨hpage, fun key hkey => ?_⟩
    cases (key?_of_isOver hover).symm.trans hkey
  · rw [hnext]
    exact drawn_advance hpage
  · rcases hread with ⟨e, _, hnext⟩ | ⟨page, hfound, hnext⟩
    · rw [hnext]
      exact drawn_finish _ keys
    · rw [hnext]
      exact drawn_advance (hscan lower c.pageSize page hfound)

theorem readStep_derived {scheme : Scheme} {a : Address} (hderives : scheme.deriveRaw key = .ok a) :
    readStep scheme key = .ask a (found key) := by
  rw [readStep, hderives]

theorem readStep_underived {scheme : Scheme} {error : KeyError}
    (hfails : scheme.deriveRaw key = .error error) :
    readStep scheme key = .done (.error (.ofKeyError error)) := by
  rw [readStep, hfails]

theorem valueStep_of_none (hkey : c.key? = none) (scheme : Scheme) :
    c.valueStep scheme =
      .done (c, .error (.unsupported "value of an unpositioned iterator")) := by
  unfold key? at hkey
  unfold valueStep
  cases hstate : c.state <;> simp [hstate] at hkey ⊢

theorem valueStep_of_key (hkey : c.key? = some key) (scheme : Scheme) :
    c.valueStep scheme = (readStep scheme key).map c.conclude := by
  unfold key? at hkey
  unfold valueStep
  cases hstate : c.state with
  | positioned other =>
    rw [hstate] at hkey
    obtain rfl : other = key := Option.some.inj hkey
    rfl
  | pending | exhausted | failed e =>
    rw [hstate] at hkey
    cases hkey

theorem value_of_none (hkey : c.key? = none) (scheme : Scheme)
    (read : Address → Except StoreError (Option Bytes)) :
    c.value scheme read = (c, .error (.unsupported "value of an unpositioned iterator")) := by
  rw [value, valueStep_of_none hkey, Step.answered]

/-- At a key, the value is what can be read for the key; if it cannot be read, the cursor fails. -/
theorem value_of_key (hkey : c.key? = some key) (scheme : Scheme)
    (read : Address → Except StoreError (Option Bytes)) :
    c.value scheme read = c.conclude ((readStep scheme key).answered read) := by
  rw [value, valueStep_of_key hkey, Step.answered_map]

/-- Reading a value leaves the cursor where it is, or ends the iteration. -/
theorem Drawn.value {keys : List Bytes} (h : c.Drawn keys) (scheme : Scheme)
    (read : Address → Except StoreError (Option Bytes)) : (c.value scheme read).1.Drawn keys := by
  cases hkey : c.key? with
  | none =>
    rw [value_of_none hkey]
    exact h
  | some key =>
    rw [value_of_key hkey]
    cases (readStep scheme key).answered read with
    | ok value => exact h
    | error e => exact drawn_finish _ keys

end Cursor

/-- What comes of reading the value of a key at a cursor that is at the key. -/
structure ValueRead (e : SqlDatabase) (d : Relational) (c : Cursor) (key : Bytes) : Prop where
  /-- The index leads from the key to a block. It is the value at the cursor, which stays where it
  is, if the key derives to the address that is recorded for it. -/
  recorded : ∃ a value, d.addressOf? key = some a ∧ d.blockAt? a = some value ∧
    (Derives key a → e.valueAt d c = (c, .ok value))
  /-- Whatever is recorded, the value is the block at the address that the key derives to. -/
  derived : ∀ a value, Derives key a → d.blockAt? a = some value → e.valueAt d c = (c, .ok value)
  /-- If there is no such block, the cursor fails. -/
  missing : ∀ a, Derives key a → d.blockAt? a = none →
    e.valueAt d c = (c.failWith (.notFound (Hex.encode key)), .error (.notFound (Hex.encode key)))
  /-- So it does if the key does not derive to any address. -/
  underived : ∀ error, Scheme.keccakBlockstore.deriveRaw key = .error error →
    e.valueAt d c = (c.failWith (.ofKeyError error), .error (.ofKeyError error))

theorem Relational.LeftBy.valueRead {d : Relational} {log : List Deed} (h : d.LeftBy log)
    (hopen : d.isOpen = true) {key : Bytes} (hmem : key ∈ d.keys) (e : SqlDatabase) {c : Cursor}
    (hkey : c.key? = some key) : ValueRead e d c key := by
  have hvalue : e.valueAt d c =
      c.conclude ((Cursor.readStep .keccakBlockstore key).answered d.read) :=
    Cursor.value_of_key hkey _ d.read
  have hread : ∀ a, Derives key a → (Cursor.readStep .keccakBlockstore key).answered d.read =
      Cursor.found key (.ok (d.blockAt? a)) := by
    intro a hderives
    rw [Cursor.readStep_derived hderives, Cursor.Step.answered, h.read hopen a]
  have hderived : ∀ a value, Derives key a → d.blockAt? a = some value →
      e.valueAt d c = (c, .ok value) := by
    intro a value hderives hblock
    rw [hvalue, hread a hderives, hblock]
    rfl
  refine ⟨?recorded, hderived, ?missing, ?underived⟩
  case recorded =>
    obtain ⟨a, haddress⟩ := h.exists_addressOf? hmem
    obtain ⟨value, hblock⟩ := h.exists_blockAt? haddress
    exact ⟨a, value, haddress, hblock, fun hderives => hderived a value hderives hblock⟩
  case missing =>
    intro a hderives hblock
    rw [hvalue, hread a hderives, hblock]
    rfl
  case underived =>
    intro error hfails
    rw [hvalue, Cursor.readStep_underived hfails]
    rfl

/-- A cursor in use at a database, whose handles are used between its steps. As making a cursor
reads nothing, it may be made when the database is. -/
structure Tour where
  shared : SharedTables.State
  cursor : Cursor

namespace Tour

inductive Event
  /-- Somebody uses the database. -/
  | use (made : SharedTables.Use)
  | next
  | value
  | release

def backend (t : Tour) : Relational := t.shared.site.backend

def step (e : SqlDatabase) (t : Tour) : Event → Tour
  | .use made => { t with shared := SharedTables.step t.shared made }
  | .next => { t with cursor := (SqlDatabase.nextKey t.backend t.cursor).1 }
  | .value => { t with cursor := (e.valueAt t.backend t.cursor).1 }
  | .release => { t with cursor := t.cursor.release }

def deeds (t : Tour) : Event → List Deed
  | .use made => SharedTables.deeds t.shared made
  | .next | .value | .release => []

def run (e : SqlDatabase) (t : Tour) (events : List Event) : Tour := events.foldl (step e) t

def written (e : SqlDatabase) (t : Tour) (events : List Event) : List Deed :=
  ledger (step e) deeds t events

/-- Iteration through one handle over a database that is empty at first. -/
def create (d e : SqlDatabase) (now : Nat) (stem start : Bytes) : Tour :=
  ⟨d.session now, e.iterate stem start⟩

/-- Nothing has been written since a page was read. -/
def Fresh (e : SqlDatabase) (t : Tour) (events : List Event) : Prop :=
  ∃ early late, events = early ++ .next :: late ∧ (run e t early).cursor.isDue = true ∧
    written e t events = written e t early

def Untyped (events : List Event) : Prop := ∀ made, .use made ∈ events → made.Untyped

section Run

variable {e : SqlDatabase} {t : Tour} {events : List Event}

theorem run_concat (e : SqlDatabase) (t : Tour) (events : List Event) (event : Event) :
    run e t (events ++ [event]) = step e (run e t events) event := List.foldl_append

theorem written_concat (e : SqlDatabase) (t : Tour) (events : List Event) (event : Event) :
    written e t (events ++ [event]) = written e t events ++ deeds (run e t events) event :=
  ledger_concat (step e) deeds t events event

theorem written_mono (e : SqlDatabase) (t : Tour) (early late : List Event) :
    written e t early <+: written e t (early ++ late) := by
  induction late using List.reverseRecOn with
  | nil => exact (List.append_nil early).symm ▸ List.prefix_rfl
  | append_singleton late event ih =>
    rw [← List.append_assoc, written_concat]
    exact ih.trans (List.prefix_append ..)

theorem tables_step (t : Tour) (event : Event) :
    (step e t event).backend.tables = t.backend.tables.afterDeeds (deeds t event) := by
  cases event with
  | use made => exact SharedTables.tables_step t.shared made
  | next | value | release => rfl

theorem tables_run (t : Tour) (events : List Event) :
    (run e t events).backend.tables = t.backend.tables.afterDeeds (written e t events) := by
  induction events using List.reverseRecOn with
  | nil => rfl
  | append_singleton events event ih =>
    rw [run_concat, written_concat, tables_step, ih]
    exact List.foldl_append.symm

/-- The tables have what was written. -/
theorem leftBy_run (d e : SqlDatabase) (now : Nat) (stem start : Bytes) (events : List Event) :
    (run e (create d e now stem start) events).backend.LeftBy
      (written e (create d e now stem start) events) := by
  obtain ⟨rows, entries, htables, hleft⟩ :=
    Tables.afterDeeds_leftBy (written e (create d e now stem start) events)
  exact ⟨rows, entries, (tables_run (create d e now stem start) events).trans htables, hleft⟩

/-- The tables are the same as long as nothing is written. -/
theorem tables_of_written_eq {early : List Event} (h : written e t events = written e t early) :
    (run e t events).backend.tables = (run e t early).backend.tables := by
  rw [tables_run, tables_run, h]

theorem written_eq_before {early late : List Event} {event : Event}
    (h : written e t (early ++ late ++ [event]) = written e t early) :
    written e t (early ++ late) = written e t early := by
  have hlow := (written_mono e t early late).length_le
  have hpart := written_mono e t (early ++ late) [event]
  rw [h] at hpart
  exact hpart.eq_of_length (Nat.le_antisymm hpart.length_le hlow)

/-- A step draws on an index from which the page at hand was drawn. -/
theorem drawn_step (hindexed : t.backend.tables.Indexed)
    (h : t.cursor.Drawn t.backend.keys) (event : Event) :
    (step e t event).cursor.Drawn t.backend.keys := by
  cases event with
  | use made => exact h
  | next =>
    exact Cursor.drawn_next h.page fun lower limit page => Relational.mem_keys_of_scan hindexed
  | value => exact h.value ..
  | release => exact Cursor.drawn_finish ..

/-- As long as nothing is written since a page was read, the cursor has keys of the index. -/
theorem drawn_of_due {early : List Event} (hdue : (run e t early).cursor.isDue = true)
    (hindexed : (run e t early).backend.tables.Indexed) (late : List Event)
    (hsame : written e t (early ++ .next :: late) = written e t early) :
    (run e t (early ++ .next :: late)).cursor.Drawn (run e t early).backend.keys := by
  rw [List.append_cons] at hsame ⊢
  induction late using List.reverseRecOn with
  | nil =>
    rw [List.append_nil, run_concat]
    have hpage : (run e t early).cursor.page = [] := by
      simp only [Cursor.isDue, Bool.and_eq_true, List.isEmpty_iff] at hdue
      exact hdue.1.2
    refine Cursor.drawn_next (fun key hmem => ?_) fun lower limit page =>
      Relational.mem_keys_of_scan hindexed
    rw [hpage] at hmem
    exact absurd hmem List.not_mem_nil
  | append_singleton late event ih =>
    rw [← List.append_assoc] at hsame ⊢
    have hbefore : written e t (early ++ [.next] ++ late) = written e t early := by
      rw [List.append_assoc early] at hsame ⊢
      exact written_eq_before hsame
    have hdrawn := ih hbefore
    have htables := tables_of_written_eq hbefore
    have hkeys : (run e t (early ++ [.next] ++ late)).backend.keys =
        (run e t early).backend.keys := by
      simp only [Relational.keys, htables]
    rw [run_concat, ← hkeys]
    exact drawn_step (htables ▸ hindexed) (hkeys ▸ hdrawn) event

/-- At a key of a page since which nothing was written, the key is in the index. -/
theorem Fresh.mem_keys (h : Fresh e t events)
    (hindexed : ∀ events, (run e t events).backend.tables.Indexed) {key : Bytes}
    (hkey : (run e t events).cursor.key? = some key) : key ∈ (run e t events).backend.keys := by
  obtain ⟨early, late, rfl, hdue, hsame⟩ := h
  have hmem := (drawn_of_due hdue (hindexed early) late hsame).position key hkey
  simpa only [Relational.keys, tables_of_written_eq hsame] using hmem

/-- If all is written raw, the books are kept. -/
theorem kept_run (d e : SqlDatabase) (now : Nat) (stem start : Bytes) {events : List Event}
    (huntyped : Untyped events) :
    SharedTables.Kept (run e (create d e now stem start) events).shared
      (written e (create d e now stem start) events) := by
  induction events using List.reverseRecOn with
  | nil =>
    have hnone : ∀ made ∈ ([] : List SharedTables.Use), made.Untyped :=
      fun made hmem => absurd hmem List.not_mem_nil
    exact SharedTables.kept_run d now hnone
  | append_singleton events event ih =>
    rw [run_concat, written_concat]
    have hbefore := ih fun made hmem => huntyped made (List.mem_append_left _ hmem)
    cases event with
    | use made => exact hbefore.step (huntyped made (by simp))
    | next | value | release => exact (List.append_nil _).symm ▸ hbefore

end Run

/-- What the values are that a cursor comes to in the course of events. -/
structure ValuesRead (e : SqlDatabase) (t : Tour) (events : List Event) : Prop where
  /-- If nothing was written since the page was read that the cursor is on, the value is the block
  that is recorded for the key, provided that the key derives to the address that is recorded. -/
  value : Fresh e t events → (run e t events).backend.isOpen = true →
    ∀ key, (run e t events).cursor.key? = some key →
      ValueRead e (run e t events).backend (run e t events).cursor key
  /-- If this is so for all keys that match, a walk over the database as it is now comes to one
  after the other, each with its recorded block, and to no error. -/
  walk : (run e t events).backend.isOpen = true → ∀ stem start,
    (∀ key a, Iteration.Matches stem start key →
      (run e t events).backend.addressOf? key = some a → Derives key a) →
    ∀ limit, ∃ last, e.walk (run e t events).backend true limit (e.iterate stem start) =
        (last, (((Iteration.ofSite (run e t events).shared.site e stem start).matching
          stem start).take limit).map
            fun key => ⟨key, ((run e t events).backend.blockOf? key).map .ok⟩) ∧
      last.error? = none
  /-- It is so for all keys, if all was written raw. -/
  untyped : Untyped events → ∀ key a,
    (run e t events).backend.addressOf? key = some a → Derives key a

/-- The values at any cursor over a database that was empty at first. -/
theorem valuesRead_run (d e : SqlDatabase) (now : Nat) (stem start : Bytes)
    (events : List Event) : ValuesRead e (create d e now stem start) events := by
  have hleft := leftBy_run d e now stem start
  refine ⟨?value, ?walk, ?untyped⟩
  case value =>
    intro hfresh hopen key hkey
    have hmem := hfresh.mem_keys (fun events => (hleft events).indexed) hkey
    exact (hleft events).valueRead hopen hmem e hkey
  case walk =>
    intro hopen stem start hderives limit
    have hbegun := Iteration.ofSite_begun ⟨hopen, (hleft events).indexed⟩ e stem start
    refine SqlDatabase.walk_from hbegun (fun key hmem c hkey => ?_) limit 0
    obtain ⟨hindex, hmatch⟩ := Iteration.mem_matching.1 hmem
    obtain ⟨a, value, haddress, hblock, hread⟩ :=
      ((hleft events).valueRead hopen hindex e hkey).recorded
    refine ⟨value, ?_, hread (hderives key a hmatch haddress)⟩
    rw [Relational.blockOf?, haddress]
    exact hblock
  case untyped =>
    intro huntyped key a haddress
    obtain ⟨rows, entries, htables, hrecords⟩ := (kept_run d e now stem start huntyped).record
    have hentry : (key, a) ∈ entries := by
      simp only [Relational.addressOf?, backend, htables] at haddress
      exact Assoc.mem_of_find?_eq_some haddress
    exact ((hrecords.entries_iff key a).1 hentry).1

namespace Retyped

def tables : SqlDatabase := ⟨{}⟩

def digest : Bytes := List.replicate 32 7

/-- A short key and a digest are put as what they look like, and the cursor goes to the second. -/
def events : List Event :=
  [.use (.call tables (.put (.typed (.ofLiteral [1])) [2])),
    .use (.call tables (.put (.raw digest) [3])), .next, .value, .next]

theorem valuesRead_plain :
    Fresh tables (create tables tables 0 [] []) events ∧
      (run tables (create tables tables 0 [] []) events).cursor.key? = some digest ∧
      (tables.valueAt (run tables (create tables tables 0 [] []) events).backend
        (run tables (create tables tables 0 [] []) events).cursor).2 = .ok [3] ∧
      ValuesRead tables (create tables tables 0 [] []) events :=
  ⟨⟨events.take 2, events.drop 3, rfl, rfl, rfl⟩, rfl, rfl,
    valuesRead_run tables tables 0 [] [] events⟩

/-- A digest is put as an opaque key. -/
def retyped : List Event :=
  [.use (.call tables (.put (.typed (.ofLiteral digest)) [1])), .next]

/-- The value at a cursor need not be the block that is recorded for its key. -/
theorem not_always_recorded :
    ¬ ∀ (d e : SqlDatabase) (now : Nat) (stem start : Bytes) (events : List Event) (key : Bytes),
      Fresh e (create d e now stem start) events →
      (run e (create d e now stem start) events).backend.isOpen = true →
      (run e (create d e now stem start) events).cursor.key? = some key →
      ∃ a value, (run e (create d e now stem start) events).backend.addressOf? key = some a ∧
        (run e (create d e now stem start) events).backend.blockAt? a = some value ∧
        e.valueAt (run e (create d e now stem start) events).backend
            (run e (create d e now stem start) events).cursor =
          ((run e (create d e now stem start) events).cursor, .ok value) := by
  intro h
  obtain ⟨a, value, _, _, hvalue⟩ := h tables tables 0 [] [] retyped digest
    ⟨retyped.take 1, [], rfl, rfl, rfl⟩ rfl rfl
  have hfails : (tables.valueAt (run tables (create tables tables 0 [] []) retyped).backend
      (run tables (create tables tables 0 [] []) retyped).cursor).2 =
        .error (.notFound (Hex.encode digest)) := rfl
  rw [hvalue] at hfails
  cases hfails

end Retyped

end Tour

end KeyedBlocks
