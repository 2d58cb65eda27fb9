import KeyedBlocks.Proofs.Batches.Contents
import KeyedBlocks.Proofs.Relational.AllOrNothing
import KeyedBlocks.Proofs.Relational.Bookkeeping

/-!
The index of a relational database whose callers may say themselves what a key is. One raw key can
then be filed under one address after another, and the index leads from it to the address that it
was put to last. No key leads to a block that is missing. But a block is lost to the index when all
keys that were put to it have since been put or deleted under other addresses; this does not happen
to keys that are always filed alike.
-/
namespace KeyedBlocks

/-- A key was put to an address; since then it was not put or deleted under any other, and nothing
was deleted under this one. -/
def LeadsTo (log : List Deed) (raw : Bytes) (a : Address) : Prop :=
  Since (Deed.Puts raw a) (fun deed => deed.key = raw ∨ deed.Removes a) log

/-- A key was put or deleted under another address than `a`, and has not been put to `a` since. -/
def Strayed (log : List Deed) (raw : Bytes) (a : Address) : Prop :=
  Since (fun deed => deed.key = raw ∧ deed.address ≠ a) (Deed.Puts raw a) log

section Log

variable {log : List Deed} {raw key : Bytes} {a b : Address} {value : Bytes}

@[simp] theorem leadsTo_concat_put :
    LeadsTo (log ++ [.put raw a value]) key b ↔
      (key = raw ∧ b = a) ∨ (key ≠ raw ∧ LeadsTo log key b) := by
  simp [LeadsTo, since_concat, Deed.Puts, Deed.Removes, Deed.key, eq_comm]

@[simp] theorem leadsTo_concat_delete :
    LeadsTo (log ++ [.delete raw a]) key b ↔ key ≠ raw ∧ b ≠ a ∧ LeadsTo log key b := by
  simp [LeadsTo, since_concat, Deed.Puts, Deed.Removes, Deed.key, eq_comm, and_assoc]

@[simp] theorem strayed_concat_put :
    Strayed (log ++ [.put raw a value]) key b ↔
      (key = raw ∧ b ≠ a) ∨ (¬ (key = raw ∧ b = a) ∧ Strayed log key b) := by
  simp [Strayed, since_concat, Deed.Puts, Deed.key, Deed.address, eq_comm]

@[simp] theorem strayed_concat_delete :
    Strayed (log ++ [.delete raw a]) key b ↔ (key = raw ∧ b ≠ a) ∨ Strayed log key b := by
  simp [Strayed, since_concat, Deed.Puts, Deed.key, Deed.address, eq_comm]

/-- A key leads to an address while it is live there and has not strayed. -/
theorem leadsTo_iff : LeadsTo log key a ↔ Live log key a ∧ ¬ Strayed log key a := by
  induction log using List.reverseRecOn with
  | nil => simp [LeadsTo, Live, not_since_nil]
  | append_singleton log deed ih =>
    cases deed with
    | put raw b value =>
      rw [leadsTo_concat_put, live_concat_put, strayed_concat_put, ih]
      by_cases hkey : key = raw
      · by_cases haddress : a = b <;> simp [hkey, haddress]
      · simp [hkey]
    | delete raw b =>
      rw [leadsTo_concat_delete, live_concat_delete, strayed_concat_delete, ih]
      by_cases hkey : key = raw
      · by_cases haddress : a = b <;> simp [hkey, haddress]
      · simp [hkey, and_assoc]

/-- There is a block under an address while some key is live there. -/
theorem exists_stored_iff : (∃ value, Stored log a value) ↔ ∃ key, Live log key a := by
  induction log using List.reverseRecOn with
  | nil => simp [Stored, Live, not_since_nil]
  | append_singleton log deed ih =>
    cases deed with
    | put raw b value =>
      simp only [stored_concat_put, live_concat_put]
      by_cases haddress : a = b
      · simp [haddress]
      · simp [haddress, ih]
    | delete raw b => simp [ih]

/-- A key that is always filed alike does not stray. -/
theorem not_strayed (halike : ∀ deed ∈ log, deed.key = key → deed.address = a) :
    ¬ Strayed log key a := by
  rintro ⟨before, deed, after, rfl, ⟨hkey, hne⟩, _⟩
  exact hne (halike deed (by simp) hkey)

theorem Live.exists_mem (h : Live log key a) :
    ∃ deed ∈ log, deed.key = key ∧ deed.address = a := by
  obtain ⟨before, _, after, rfl, ⟨value, rfl⟩, _⟩ := h
  exact ⟨.put key a value, by simp, rfl, rfl⟩

end Log

/-- The rows of both tables are what a log leaves: a block where a value was put and not deleted,
and each key with the address that it leads to. -/
structure LeftBy (rows : List (Address × Bytes)) (entries : List (Bytes × Address))
    (log : List Deed) : Prop where
  addresses : (rows.map Prod.fst).Nodup
  keys : (entries.map Prod.fst).Nodup
  rows_iff : ∀ a value, (a, value) ∈ rows ↔ Stored log a value
  entries_iff : ∀ key a, (key, a) ∈ entries ↔ LeadsTo log key a

theorem leftBy_nil : LeftBy [] [] [] where
  addresses := List.nodup_nil
  keys := List.nodup_nil
  rows_iff a value := by simp [Stored, not_since_nil]
  entries_iff key a := by simp [LeadsTo, not_since_nil]

section Deeds

variable {rows : List (Address × Bytes)} {entries : List (Bytes × Address)} {log : List Deed}
  (h : LeftBy rows entries log)
include h

theorem LeftBy.put (raw : Bytes) (a : Address) (value : Bytes) :
    LeftBy (Assoc.insert a value rows) (Assoc.insert raw a entries)
      (log ++ [.put raw a value]) where
  addresses := Assoc.insert_keys_nodup a value h.addresses
  keys := Assoc.insert_keys_nodup raw a h.keys
  rows_iff b new := by rw [Assoc.mem_insert, stored_concat_put, h.rows_iff]
  entries_iff key b := by rw [Assoc.mem_insert, leadsTo_concat_put, h.entries_iff]

theorem LeftBy.delete (raw : Bytes) (a : Address) :
    LeftBy (Assoc.erase a rows) ((Assoc.erase raw entries).filter fun row => row.2 ≠ a)
      (log ++ [.delete raw a]) where
  addresses := Assoc.erase_keys_nodup a h.addresses
  keys := (Assoc.erase_keys_nodup raw h.keys).sublist (List.filter_sublist.map Prod.fst)
  rows_iff b value := by rw [Assoc.mem_erase, stored_concat_delete, h.rows_iff]
  entries_iff key b := by
    rw [leadsTo_concat_delete, ← h.entries_iff, List.mem_filter, Assoc.mem_erase]
    simp only [decide_eq_true_eq, ne_eq]
    rw [and_assoc, and_comm (a := (key, b) ∈ entries)]

end Deeds

/-- Deeds done to empty tables leave the rows that they tell of. -/
theorem Tables.afterDeeds_leftBy (log : List Deed) :
    ∃ rows entries, empty.afterDeeds log = ⟨some rows, .rows entries⟩ ∧
      LeftBy rows entries log := by
  induction log using List.reverseRecOn with
  | nil => exact ⟨[], [], rfl, leftBy_nil⟩
  | append_singleton log deed ih =>
    obtain ⟨rows, entries, htables, hleft⟩ := ih
    have hdeed : empty.afterDeeds (log ++ [deed]) = (empty.afterDeeds log).afterDeed deed :=
      List.foldl_append
    rw [hdeed, htables]
    cases deed with
    | put raw a value => exact ⟨_, _, rfl, hleft.put raw a value⟩
    | delete raw a => exact ⟨_, _, rfl, hleft.delete raw a⟩

/-- How far the blocks and the index are in step after a log. -/
structure InStep (rows : List (Address × Bytes)) (entries : List (Bytes × Address))
    (log : List Deed) : Prop extends LeftBy rows entries log where
  /-- No key leads to a block that is missing. -/
  led : ∀ key a, (key, a) ∈ entries → ∃ value, (a, value) ∈ rows
  /-- A block is lost to the index just when all keys that were put to it have strayed. -/
  lost_iff : ∀ a value, (a, value) ∈ rows →
    ((∀ key, (key, a) ∉ entries) ↔ ∀ key, Live log key a → Strayed log key a)
  /-- Where keys are always filed alike, a block is there just when a key leads to it. -/
  alike : (∀ deed ∈ log, ∀ other ∈ log, other.key = deed.key → other.address = deed.address) →
    ∀ a, (∃ value, (a, value) ∈ rows) ↔ ∃ key, (key, a) ∈ entries

theorem LeftBy.inStep {rows : List (Address × Bytes)} {entries : List (Bytes × Address)}
    {log : List Deed} (h : LeftBy rows entries log) : InStep rows entries log := by
  have hblock : ∀ a, (∃ value, (a, value) ∈ rows) ↔ ∃ key, Live log key a := by
    intro a
    simp only [h.rows_iff]
    exact exists_stored_iff
  have hled : ∀ key a, (key, a) ∈ entries → ∃ value, (a, value) ∈ rows := by
    intro key a hentry
    have hleads := (h.entries_iff key a).1 hentry
    exact (hblock a).2 ⟨key, (leadsTo_iff.1 hleads).1⟩
  refine ⟨h, hled, ?lost, ?alike⟩
  case lost =>
    intro a value _
    simp only [h.entries_iff, leadsTo_iff, not_and, not_not]
  case alike =>
    intro halike a
    refine ⟨fun hrow => ?_, fun ⟨key, hentry⟩ => hled key a hentry⟩
    obtain ⟨key, hlive⟩ := (hblock a).1 hrow
    obtain ⟨deed, hmem, hkey, rfl⟩ := hlive.exists_mem
    have hstays : ¬ Strayed log key deed.address := not_strayed fun other hother hsame =>
      halike deed hmem other hother (hsame.trans hkey.symm)
    exact ⟨key, (h.entries_iff key _).2 (leadsTo_iff.2 ⟨hlive, hstays⟩)⟩

namespace SharedTables

/-- A use does to the tables what it enters in the log. -/
theorem tables_step (s : State) (use : Use) :
    (step s use).site.backend.tables = s.site.backend.tables.afterDeeds (deeds s use) := by
  cases use with
  | move site => rfl
  | call d call =>
    cases hrequest : Session.request? d.handle s.batches call with
    | none =>
      have hquiet : Session.Quiet Relational.pace s.site call (s.step d.facade call).1.site :=
        Session.quiet_of_no_request hrequest
      have hdeeds : deeds s (.call d call) = [] := Session.deeds_of_no_request hrequest
      rw [hdeeds]
      exact tables_of_quiet hquiet
    | some request =>
      have hstep : s.step d.facade call =
          ({ s with site := (s.site.make request).1 }, .did (s.site.make request).2) :=
        Session.step_of_request hrequest
      rw [step, hstep]
      rcases Relational.make_cases s.site request with ⟨tables, hexec, hmake⟩ | ⟨e, hmake⟩
      · have hok : (s.site.make request).2 = .ok () := by rw [hmake]
        have hdeeds : deeds s (.call d call) = request.deeds :=
          Session.deeds_of_ok hrequest hok
        rw [hdeeds, hmake]
        exact Tables.execAll_deeds hexec
      · have herror : (s.site.make request).2 = .error e := by rw [hmake]
        have hdeeds : deeds s (.call d call) = [] := Session.deeds_of_error hrequest herror
        rw [hdeeds, hmake]
        rfl

theorem tables_run (s : State) (uses : List Use) :
    (run s uses).site.backend.tables = s.site.backend.tables.afterDeeds (log s uses) := by
  induction uses using List.reverseRecOn with
  | nil => rfl
  | append_singleton uses use ih =>
    rw [run_concat, log_concat, tables_step, ih]
    exact List.foldl_append.symm

/-- Through any history of typed and untyped uses of a database that was empty, the index and the
blocks are in step but for keys that stray. -/
theorem inStep_run (d : SqlDatabase) (now : Nat) (uses : List Use) :
    ∃ rows entries, (run (d.session now) uses).site.backend.tables = ⟨some rows, .rows entries⟩ ∧
      InStep rows entries (log (d.session now) uses) := by
  obtain ⟨rows, entries, htables, hleft⟩ :=
    Tables.afterDeeds_leftBy (log (d.session now) uses)
  exact ⟨rows, entries, (tables_run (d.session now) uses).trans htables, hleft.inStep⟩

namespace Strays

def tables : SqlDatabase := ⟨{}⟩

def digest : Bytes := List.replicate 32 7

/-- A key is put as an opaque one and then as the digest that it looks like, and is deleted. -/
def uses : List Use :=
  [.call tables (.put (.typed (.ofLiteral digest)) [1]), .call tables (.put (.raw digest) [2]),
    .call tables (.delete (.raw digest))]

/-- Blocks can be left to which no key leads. -/
theorem not_always_indexed :
    ¬ ∀ (d : SqlDatabase) (now : Nat) (uses : List Use) rows entries,
      (run (d.session now) uses).site.backend.tables = ⟨some rows, .rows entries⟩ →
      ∀ a, (∃ value, (a, value) ∈ rows) ↔ ∃ key, (key, a) ∈ entries := by
  intro h
  obtain ⟨a, ha⟩ : ∃ a, (run (tables.session 0) uses).site.backend.tables =
      ⟨some [(a, [1])], .rows []⟩ := ⟨_, rfl⟩
  obtain ⟨key, hkey⟩ := (h tables 0 uses _ _ ha a).1 ⟨[1], List.mem_singleton.2 rfl⟩
  exact List.not_mem_nil hkey

end Strays

end SharedTables

end KeyedBlocks
