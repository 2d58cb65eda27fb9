import KeyedBlocks.Relational.Basic

/-!
What statements and transactions leave in the table of blocks. A statement that does not fail writes
one block, drops one block, or leaves the blocks alone; a transaction that does not fail has carried
out all its statements.
-/
namespace KeyedBlocks

namespace Tables

theorem exec_upsertBlock {guards : Guards} {t t' : Tables} {a : Address} {value : Bytes}
    (h : exec guards t (.upsertBlock a value) = .ok t') :
    ∃ rows, t.blocks = some rows ∧ t' = { t with blocks := some (Assoc.insert a value rows) } := by
  simp only [exec, blockRows] at h
  cases hblocks : t.blocks with
  | none =>
    rw [hblocks] at h
    cases h
  | some rows =>
    rw [hblocks] at h
    change (if guards.insertion = some value then _ else _) = _ at h
    split at h
    · cases h
    · cases h
      exact ⟨rows, rfl, rfl⟩

theorem exec_deleteBlock {guards : Guards} {t t' : Tables} {a : Address}
    (h : exec guards t (.deleteBlock a) = .ok t') :
    ∃ rows, t.blocks = some rows ∧ t' = { t with blocks := some (Assoc.erase a rows) } := by
  simp only [exec, blockRows] at h
  cases hblocks : t.blocks with
  | none =>
    rw [hblocks] at h
    cases h
  | some rows =>
    simp only [hblocks, bind, Except.bind] at h
    split at h
    · split at h
      · cases h
      · cases h
        exact ⟨rows, rfl, rfl⟩
    · cases h
      exact ⟨rows, rfl, rfl⟩

/-- Statements about preimages leave the blocks alone. -/
theorem exec_preimages {guards : Guards} {t t' : Tables} {statement : Statement}
    (hput : ∀ a value, statement ≠ .upsertBlock a value) (hdelete : ∀ a, statement ≠ .deleteBlock a)
    (h : exec guards t statement = .ok t') : t'.blocks = t.blocks := by
  cases statement with
  | upsertBlock a value => exact absurd rfl (hput a value)
  | deleteBlock a => exact absurd rfl (hdelete a)
  | upsertPreimage key a | deletePreimage key =>
    simp only [exec, preimageRows] at h
    split at h
    · cases h
      rfl
    · cases h
    · cases h
  | deletePreimagesOf a =>
    simp only [exec] at h
    split at h
    · cases h
      rfl
    · cases h
      rfl
    · cases h

theorem execAll_cons {guards : Guards} {t t' : Tables} {statement : Statement}
    {rest : List Statement} :
    execAll guards t (statement :: rest) = .ok t' ↔
      ∃ next, exec guards t statement = .ok next ∧ execAll guards next rest = .ok t' := by
  simp only [execAll, List.foldlM_cons]
  cases exec guards t statement with
  | error fault =>
    constructor
    · intro h
      cases h
    · intro h
      obtain ⟨_, hfault, _⟩ := h
      cases hfault
  | ok next =>
    constructor
    · intro h
      exact ⟨next, rfl, h⟩
    · intro h
      obtain ⟨_, hsame, hrest⟩ := h
      cases hsame
      exact hrest

theorem execAll_append {guards : Guards} {t t' : Tables} {statements rest : List Statement} :
    execAll guards t (statements ++ rest) = .ok t' ↔
      ∃ next, execAll guards t statements = .ok next ∧ execAll guards next rest = .ok t' := by
  induction statements generalizing t with
  | nil =>
    have hnil : execAll guards t [] = .ok t := rfl
    simp [hnil]
  | cons statement statements ih =>
    simp only [List.cons_append, execAll_cons, ih]
    constructor
    · rintro ⟨first, hfirst, next, hnext, hrest⟩
      exact ⟨next, ⟨first, hfirst, hnext⟩, hrest⟩
    · rintro ⟨next, ⟨first, hfirst, hnext⟩, hrest⟩
      exact ⟨first, hfirst, next, hnext, hrest⟩

/-- The table of blocks is there and holds nothing under an address. -/
def Lacks (t : Tables) (a : Address) : Prop :=
  ∃ rows, t.blocks = some rows ∧ Assoc.find? a rows = none

theorem lacks_of_deleteBlock {guards : Guards} {t t' : Tables} {a : Address}
    (h : exec guards t (.deleteBlock a) = .ok t') : t'.Lacks a := by
  obtain ⟨rows, _, rfl⟩ := exec_deleteBlock h
  exact ⟨_, rfl, Assoc.find?_erase_self a rows⟩

/-- What is not under an address gets there only by a statement that writes it. -/
theorem Lacks.exec {guards : Guards} {t t' : Tables} {a : Address} {statement : Statement}
    (hlacks : t.Lacks a) (hother : ∀ value, statement ≠ .upsertBlock a value)
    (h : Tables.exec guards t statement = .ok t') : t'.Lacks a := by
  obtain ⟨rows, hblocks, hfind⟩ := hlacks
  by_cases hput : ∃ other value, statement = .upsertBlock other value
  · obtain ⟨other, value, rfl⟩ := hput
    obtain ⟨old, hold, rfl⟩ := exec_upsertBlock h
    cases hblocks.symm.trans hold
    have hne : a ≠ other := by
      intro heq
      exact hother value (heq ▸ rfl)
    exact ⟨_, rfl, (Assoc.find?_insert_of_ne hne value rows).trans hfind⟩
  · by_cases hdelete : ∃ other, statement = .deleteBlock other
    · obtain ⟨other, rfl⟩ := hdelete
      obtain ⟨old, hold, rfl⟩ := exec_deleteBlock h
      cases hblocks.symm.trans hold
      by_cases heq : a = other
      · subst heq
        exact lacks_of_deleteBlock h
      · exact ⟨_, rfl, (Assoc.find?_erase_of_ne heq rows).trans hfind⟩
    · have hsame := exec_preimages (fun other value heq => hput ⟨other, value, heq⟩)
        (fun other heq => hdelete ⟨other, heq⟩) h
      exact ⟨rows, hsame.trans hblocks, hfind⟩

theorem Lacks.execAll {guards : Guards} {t t' : Tables} {a : Address}
    {statements : List Statement} (hlacks : t.Lacks a)
    (hother : ∀ value, .upsertBlock a value ∉ statements)
    (h : Tables.execAll guards t statements = .ok t') : t'.Lacks a := by
  induction statements generalizing t with
  | nil =>
    cases h
    exact hlacks
  | cons statement rest ih =>
    obtain ⟨next, hexec, hrest⟩ := execAll_cons.1 h
    have hnext := hlacks.exec (fun value heq => hother value (heq ▸ List.mem_cons_self ..)) hexec
    exact ih hnext (fun value hmem => hother value (List.mem_cons_of_mem _ hmem)) hrest

end Tables

namespace Relational

def blockAt? (d : Relational) (a : Address) : Option Bytes := d.tables.blocks.bind (Assoc.find? a)

/-- A transaction with a statement in it that has not failed has carried out all of them. -/
theorem execAll_of_transaction {d : Relational} {statements : List Statement}
    (hsome : statements ≠ []) (hok : (d.transaction statements).2 = .ok ()) :
    d.isOpen = true ∧ ∃ tables, d.tables.execAll d.guards statements = .ok tables ∧
      (d.transaction statements).1 = { d with tables } := by
  unfold transaction at hok ⊢
  cases hopen : d.isOpen with
  | false =>
    simp only [hopen] at hok
    cases hok
  | true =>
    refine ⟨rfl, ?_⟩
    simp only [hopen, Bool.not_true, Bool.false_eq_true, if_false] at hok ⊢
    cases hreadOnly : d.readOnly with
    | true =>
      obtain ⟨first, rest, rfl⟩ := List.exists_cons_of_ne_nil hsome
      simp only [hreadOnly, if_true, Tables.refuse] at hok
      cases hfirst : d.tables.exec {} first with
      | error fault =>
        rw [hfirst] at hok
        cases hok
      | ok next =>
        rw [hfirst] at hok
        cases hok
    | false =>
      simp only [hreadOnly, Bool.false_eq_true, if_false] at hok ⊢
      cases hexec : d.tables.execAll d.guards statements with
      | error fault =>
        simp only [hexec] at hok
        cases hok
      | ok tables => exact ⟨tables, rfl, rfl⟩

end Relational

end KeyedBlocks
