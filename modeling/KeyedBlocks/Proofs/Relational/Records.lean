import KeyedBlocks.Proofs.Backends.FaultFree
import KeyedBlocks.Proofs.Sessions.Deeds
import KeyedBlocks.Relational.Database

/-!
The tables of a relational database as a record of what was written to it. The table of preimages
has a row for each key that was put and that no delete has reached since, under its own name or that
of an alias; the table of blocks has the last value put to each address that still has such a row.
-/
namespace KeyedBlocks

def Deed.statements : Deed → List Statement
  | .put raw a value => putStatements raw a value
  | .delete raw a => deleteStatements raw a

def Derives (raw : Bytes) (a : Address) : Prop :=
  Scheme.keccakBlockstore.deriveRaw raw = .ok a

theorem Derives.unique {raw : Bytes} {a b : Address} (ha : Derives raw a) (hb : Derives raw b) :
    a = b :=
  Except.ok.inj (ha.symm.trans hb)

def Deed.Derived : Deed → Prop
  | .put raw a _ | .delete raw a => Derives raw a

/-- The rows of both tables are what a log says: one row for each live key, and for each address
with a live key one row with the value last put there. -/
structure Records (rows : List (Address × Bytes)) (entries : List (Bytes × Address))
    (log : List Deed) : Prop where
  addresses : (rows.map Prod.fst).Nodup
  keys : (entries.map Prod.fst).Nodup
  entries_iff : ∀ key a, (key, a) ∈ entries ↔ Derives key a ∧ Live log key a
  rows_iff : ∀ a value, (a, value) ∈ rows ↔ (∃ key, (key, a) ∈ entries) ∧ LastPut log a value

theorem records_nil : Records [] [] [] where
  addresses := List.nodup_nil
  keys := List.nodup_nil
  entries_iff key a := by simp [Live, not_since_nil]
  rows_iff a value := by simp

section Deeds

variable {rows : List (Address × Bytes)} {entries : List (Bytes × Address)} {log : List Deed}
  (h : Records rows entries log)
include h

theorem Records.put {raw : Bytes} {a : Address} (value : Bytes) (hraw : Derives raw a) :
    Records (Assoc.insert a value rows) (Assoc.insert raw a entries)
      (log ++ [.put raw a value]) := by
  have hentries : ∀ key b, (key, b) ∈ Assoc.insert raw a entries ↔
      (key = raw ∧ b = a) ∨ (key, b) ∈ entries := by
    intro key b
    rw [Assoc.mem_insert]
    constructor
    · rintro (hnew | ⟨_, hold⟩)
      · exact Or.inl hnew
      · exact Or.inr hold
    · rintro (hnew | hold)
      · exact Or.inl hnew
      · by_cases hkey : key = raw
        · subst hkey
          exact Or.inl ⟨rfl, ((h.entries_iff key b).1 hold).1.unique hraw⟩
        · exact Or.inr ⟨hkey, hold⟩
  refine ⟨Assoc.insert_keys_nodup a value h.addresses, Assoc.insert_keys_nodup raw a h.keys, ?_, ?_⟩
  · intro key b
    rw [hentries, h.entries_iff, live_concat_put]
    constructor
    · rintro (⟨rfl, rfl⟩ | ⟨hkey, hlive⟩)
      · exact ⟨hraw, Or.inl ⟨rfl, rfl⟩⟩
      · exact ⟨hkey, Or.inr hlive⟩
    · rintro ⟨hkey, hnew | hlive⟩
      · exact Or.inl hnew
      · exact Or.inr ⟨hkey, hlive⟩
  · intro b new
    rw [Assoc.mem_insert, h.rows_iff, lastPut_concat_put]
    constructor
    · rintro (⟨rfl, rfl⟩ | ⟨hne, ⟨key, hkey⟩, hlast⟩)
      · exact ⟨⟨raw, (hentries raw b).2 (Or.inl ⟨rfl, rfl⟩)⟩, Or.inl ⟨rfl, rfl⟩⟩
      · exact ⟨⟨key, (hentries key b).2 (Or.inr hkey)⟩, Or.inr ⟨hne, hlast⟩⟩
    · rintro ⟨⟨key, hkey⟩, hnew | ⟨hne, hlast⟩⟩
      · exact Or.inl hnew
      · rcases (hentries key b).1 hkey with ⟨_, hsame⟩ | hold
        · exact absurd hsame hne
        · exact Or.inr ⟨hne, ⟨key, hold⟩, hlast⟩

theorem Records.delete {raw : Bytes} {a : Address} (hraw : Derives raw a) :
    Records (Assoc.erase a rows) ((Assoc.erase raw entries).filter fun row => row.2 ≠ a)
      (log ++ [.delete raw a]) := by
  have hentries : ∀ key b, (key, b) ∈ (Assoc.erase raw entries).filter (fun row => row.2 ≠ a) ↔
      b ≠ a ∧ (key, b) ∈ entries := by
    intro key b
    simp only [List.mem_filter, Assoc.mem_erase, decide_eq_true_eq]
    constructor
    · rintro ⟨⟨_, hold⟩, hne⟩
      exact ⟨hne, hold⟩
    · rintro ⟨hne, hold⟩
      refine ⟨⟨?_, hold⟩, hne⟩
      rintro rfl
      exact hne (((h.entries_iff key b).1 hold).1.unique hraw)
  refine ⟨Assoc.erase_keys_nodup a h.addresses, ?_, ?_, ?_⟩
  · exact (Assoc.erase_keys_nodup raw h.keys).sublist (List.filter_sublist.map Prod.fst)
  · intro key b
    rw [hentries, h.entries_iff, live_concat_delete, and_left_comm]
  · intro b new
    simp only [Assoc.mem_erase, h.rows_iff, lastPut_concat_delete, hentries]
    constructor
    · rintro ⟨hne, ⟨key, hkey⟩, hlast⟩
      exact ⟨⟨key, hne, hkey⟩, hlast⟩
    · rintro ⟨⟨key, hne, hkey⟩, hlast⟩
      exact ⟨hne, ⟨key, hkey⟩, hlast⟩

/-- No row is left under an address that was deleted. -/
theorem Records.not_mem_of_deleted {a : Address} (hdeleted : Deleted log a) :
    (∀ key, (key, a) ∉ entries) ∧ ∀ value, (a, value) ∉ rows := by
  have hkeys : ∀ key, (key, a) ∉ entries := fun key hmem =>
    hdeleted.not_live key ((h.entries_iff key a).1 hmem).2
  refine ⟨hkeys, fun value hmem => ?_⟩
  obtain ⟨⟨key, hkey⟩, _⟩ := (h.rows_iff a value).1 hmem
  exact hkeys key hkey

end Deeds

def Tables.Record (t : Tables) (log : List Deed) : Prop :=
  ∃ rows entries, t = ⟨some rows, .rows entries⟩ ∧ Records rows entries log

theorem Tables.Record.exec {t t' : Tables} {guards : Guards} {log : List Deed} {deed : Deed}
    (h : t.Record log) (hderived : deed.Derived)
    (hexec : t.execAll guards deed.statements = .ok t') : t'.Record (log ++ [deed]) := by
  obtain ⟨rows, entries, rfl, hrecords⟩ := h
  cases deed with
  | put raw a value =>
    obtain ⟨next, hblock, hrest⟩ := execAll_cons.1 hexec
    obtain ⟨old, hold, rfl⟩ := exec_upsertBlock hblock
    cases hold
    cases hrest
    exact ⟨_, _, rfl, hrecords.put value hderived⟩
  | delete raw a =>
    obtain ⟨next, hkey, hrest⟩ := execAll_cons.1 hexec
    cases hkey
    obtain ⟨next, haliases, hrest⟩ := execAll_cons.1 hrest
    cases haliases
    obtain ⟨next, hblock, hrest⟩ := execAll_cons.1 hrest
    obtain ⟨old, hold, rfl⟩ := exec_deleteBlock hblock
    cases hold
    cases hrest
    exact ⟨_, _, rfl, hrecords.delete hderived⟩

theorem Tables.Record.execAll {t t' : Tables} {guards : Guards} {log deeds : List Deed}
    (h : t.Record log) (hderived : ∀ deed ∈ deeds, deed.Derived)
    (hexec : t.execAll guards (deeds.flatMap Deed.statements) = .ok t') :
    t'.Record (log ++ deeds) := by
  induction deeds generalizing t log with
  | nil =>
    cases hexec
    simpa using h
  | cons deed rest ih =>
    rw [List.flatMap_cons] at hexec
    obtain ⟨next, hfirst, hrest⟩ := execAll_append.1 hexec
    have hnext := h.exec (hderived deed (List.mem_cons_self ..)) hfirst
    have hall := ih hnext (fun later hlater => hderived later (List.mem_cons_of_mem _ hlater)) hrest
    simpa using hall

namespace Relational

/-- A transaction carries out all its statements, or fails and changes nothing. -/
theorem transaction_cases (d : Relational) (statements : List Statement) :
    (∃ tables, d.tables.execAll d.guards statements = .ok tables ∧
        d.transaction statements = ({ d with tables }, .ok ())) ∨
      ∃ e, d.transaction statements = (d, .error e) := by
  obtain ⟨tables, guards, readOnly, isOpen, fetchMs, maxConnections⟩ := d
  cases isOpen with
  | false => exact Or.inr ⟨_, rfl⟩
  | true =>
    cases readOnly with
    | true =>
      cases statements with
      | nil => exact Or.inl ⟨tables, rfl, rfl⟩
      | cons statement rest =>
        refine Or.inr ?_
        simp only [transaction, Tables.refuse]
        cases tables.exec {} statement <;> exact ⟨_, rfl⟩
    | false =>
      simp only [transaction]
      cases tables.execAll guards statements with
      | error fault => exact Or.inr ⟨_, rfl⟩
      | ok next => exact Or.inl ⟨next, rfl, rfl⟩

theorem batchStatements_eq (b : Buffer) :
    batchStatements b = b.deeds.flatMap Deed.statements := by
  simp [batchStatements, Buffer.deeds, List.flatMap_map, Deed.statements]

/-- A request is planned as one transaction with the statements of its deeds, after which the cache
forgets what was deleted; a batch with nothing in it is not planned at all. -/
theorem plan_cases (request : Request) :
    request.plan Relational =
        .perform (request.deeds.flatMap Deed.statements) :: request.forgotten.map .forget ∨
      (request.plan Relational = [] ∧ request.deeds = [] ∧ request.forgotten = []) := by
  cases request with
  | put raw a value | delete raw a => exact Or.inl rfl
  | flush b =>
    show flush b = _ ∨ (flush b = _ ∧ b.deeds = _ ∧ b.deleteList.map Prod.snd = _)
    unfold flush
    cases hempty : b.isEmpty with
    | true =>
      obtain ⟨hputs, hdeletes⟩ := lists_of_isEmpty hempty
      refine Or.inr ⟨rfl, ?_, ?_⟩
      · rw [Buffer.deeds, hputs, hdeletes]
        rfl
      · rw [hdeletes]
        rfl
    | false =>
      refine Or.inl ?_
      rw [batchStatements_eq]
      show _ = _ :: (b.deleteList.map Prod.snd).map Effect.forget
      rw [List.map_map]
      rfl

/-- A plan that carries out statements, and then has the cache forget addresses, is made as a whole
or not at all. -/
theorem run_cases (s : Site Relational) (statements : List Statement) (addresses : List Address) :
    (∃ tables, s.backend.tables.execAll s.backend.guards statements = .ok tables ∧
        s.run (.perform statements :: addresses.map .forget) =
          (⟨{ s.backend with tables }, s.cache.invalidateAll addresses, s.now⟩, .ok ())) ∨
      ∃ e, s.run (.perform statements :: addresses.map .forget) = (s, .error e) := by
  rcases transaction_cases s.backend statements with ⟨tables, hexec, hdone⟩ | ⟨e, hfailed⟩
  · have hbackend : Backend.perform s.backend statements = _ := hdone
    refine Or.inl ⟨tables, hexec, ?_⟩
    simp only [Site.run, runSteps, Site.step, hbackend]
    exact Site.run_forgets ⟨{ s.backend with tables }, s.cache, s.now⟩ addresses
  · have hbackend : Backend.perform s.backend statements = _ := hfailed
    refine Or.inr ⟨e, ?_⟩
    simp only [Site.run, runSteps, Site.step, hbackend]

/-- A request that succeeds carries out the statements of its deeds, and one that fails leaves the
tables as they are. -/
theorem make_cases (s : Site Relational) (request : Request) :
    (∃ tables, s.backend.tables.execAll s.backend.guards (request.deeds.flatMap Deed.statements) =
          .ok tables ∧
        s.make request =
          (⟨{ s.backend with tables }, s.cache.invalidateAll request.forgotten, s.now⟩, .ok ())) ∨
      ∃ e, s.make request = (s, .error e) := by
  unfold Site.make
  rcases plan_cases request with hplan | ⟨hplan, hdeeds, hforgotten⟩
  · rw [hplan]
    exact run_cases s (request.deeds.flatMap Deed.statements) request.forgotten
  · rw [hplan, hdeeds, hforgotten]
    exact Or.inl ⟨s.backend.tables, rfl, rfl⟩

end Relational

end KeyedBlocks
