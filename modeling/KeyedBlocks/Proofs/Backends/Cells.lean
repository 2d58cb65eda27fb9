import KeyedBlocks.Proofs.Batches.Accepted
import KeyedBlocks.Proofs.Relational.AllOrNothing
import KeyedBlocks.Proofs.Sessions.Transparent

/-!
Single puts and deletes, one address at a time. Each changes the block at its own address or is
refused, and it is refused because of its address, its value or the block that is there. So what
becomes of the block at an address is told by the deeds at this address alone: the last put that is
accepted decides, and then the first delete. It makes no difference there whether those writes are
made that a later write of the same key replaces.
-/
namespace KeyedBlocks

def Deed.leaves : Deed → Option Bytes
  | .put _ _ value => some value
  | .delete .. => none

/-- Which puts and deletes are accepted. A delete may depend on the block that is there. -/
structure Rule where
  put : Address → Bytes → Bool
  delete : Address → Option Bytes → Bool

namespace Rule

variable (rule : Rule)

def accepts (found : Option Bytes) : Deed → Bool
  | .put _ a value => rule.put a value
  | .delete _ a => rule.delete a found

/-- What deeds at one address leave there. -/
def cell (found : Option Bytes) (deeds : List Deed) : Option Bytes :=
  deeds.foldl (fun found deed => if rule.accepts found deed then deed.leaves else found) found

/-- Deeds at one address are accepted one after the other. -/
def AcceptsAll : Option Bytes → List Deed → Prop
  | _, [] => True
  | found, deed :: rest => rule.accepts found deed = true ∧ AcceptsAll deed.leaves rest

variable {rule} {found : Option Bytes} {deed : Deed} {a : Address}

theorem cell_cons (found : Option Bytes) (deed : Deed) (rest : List Deed) :
    rule.cell found (deed :: rest) =
      rule.cell (if rule.accepts found deed then deed.leaves else found) rest :=
  rfl

theorem cell_append (found : Option Bytes) (front back : List Deed) :
    rule.cell found (front ++ back) = rule.cell (rule.cell found front) back :=
  List.foldl_append

theorem acceptsAll_append {front back : List Deed} :
    rule.AcceptsAll found (front ++ back) ↔
      rule.AcceptsAll found front ∧ rule.AcceptsAll (rule.cell found front) back := by
  induction front generalizing found with
  | nil => exact ⟨fun h => ⟨trivial, h⟩, fun h => h.2⟩
  | cons deed rest ih =>
    constructor
    · intro ⟨haccepts, hall⟩
      obtain ⟨hfront, hback⟩ := ih.1 hall
      rw [cell_cons, if_pos haccepts]
      exact ⟨⟨haccepts, hfront⟩, hback⟩
    · intro ⟨⟨haccepts, hfront⟩, hback⟩
      rw [cell_cons, if_pos haccepts] at hback
      exact ⟨haccepts, ih.2 ⟨hfront, hback⟩⟩

/-- The put that comes last decides, and it is not replaced. -/
theorem cell_puts {puts : List (Bytes × Address × Bytes)}
    (h : rule.AcceptsAll found (Deed.puts (unreplaced Prod.fst puts))) :
    rule.cell found (Deed.puts puts) =
      rule.cell found (Deed.puts (unreplaced Prod.fst puts)) := by
  cases puts using List.reverseRecOn with
  | nil => rfl
  | append_singleton front entry =>
    have hlast : ∀ entries : List (Bytes × Address × Bytes),
        rule.put entry.2.1 entry.2.2 = true →
        rule.cell found (Deed.puts (entries ++ [entry])) = some entry.2.2 := by
      intro entries haccepted
      rw [Deed.puts, List.map_append, cell_append]
      exact if_pos haccepted
    rw [unreplaced_concat] at h ⊢
    rw [Deed.puts, List.map_append] at h
    have haccepted := (acceptsAll_append.1 h).2.1
    rw [hlast _ haccepted, hlast _ haccepted]

/-- Nothing is left after a delete. -/
theorem cell_deletes_none (deletes : List (Bytes × Address)) :
    rule.cell none (Deed.deletes deletes) = none := by
  induction deletes with
  | nil => rfl
  | cons entry rest ih =>
    rw [Deed.deletes, List.map_cons, cell_cons]
    have hnone : (if rule.accepts none (.delete entry.1 entry.2) then
        (Deed.delete entry.1 entry.2).leaves else none) = none := ite_self none
    rw [hnone]
    exact ih

theorem cell_deletes_of_accepted {deletes : List (Bytes × Address)} (hsome : deletes ≠ [])
    (haddress : ∀ entry ∈ deletes, entry.2 = a) (haccepted : rule.delete a found = true) :
    rule.cell found (Deed.deletes deletes) = none := by
  obtain ⟨entry, rest, rfl⟩ := List.exists_cons_of_ne_nil hsome
  obtain rfl := haddress entry (List.mem_cons_self ..)
  have haccepts : rule.accepts found (.delete entry.1 entry.2) = true := haccepted
  rw [Deed.deletes, List.map_cons, cell_cons, if_pos haccepts]
  exact cell_deletes_none rest

/-- The delete that comes first decides, be it replaced or not. -/
theorem cell_deletes {deletes : List (Bytes × Address)} (haddress : ∀ entry ∈ deletes, entry.2 = a)
    (h : rule.AcceptsAll found (Deed.deletes (unreplaced Prod.fst deletes))) :
    rule.cell found (Deed.deletes deletes) =
      rule.cell found (Deed.deletes (unreplaced Prod.fst deletes)) := by
  by_cases hnone : deletes = []
  · rw [hnone]
    rfl
  · have hsome : unreplaced Prod.fst deletes ≠ [] := fun hnil => hnone (unreplaced_eq_nil.1 hnil)
    have hkept : ∀ entry ∈ unreplaced Prod.fst deletes, entry.2 = a := fun entry hmem =>
      haddress entry (unreplaced_subset _ _ hmem)
    -- Whichever delete comes first, it meets the block that is there before all of them.
    have haccepted : rule.delete a found = true := by
      obtain ⟨entry, rest, hdeletes⟩ := List.exists_cons_of_ne_nil hsome
      rw [hdeletes] at h hkept
      rw [← hkept entry (List.mem_cons_self ..)]
      exact h.1
    rw [cell_deletes_of_accepted hnone haddress haccepted,
      cell_deletes_of_accepted hsome hkept haccepted]

/-- If those are accepted that no later one of the same key replaces, the others do not matter. -/
theorem cell_unreplaced {puts : List (Bytes × Address × Bytes)} {deletes : List (Bytes × Address)}
    (haddress : ∀ entry ∈ deletes, entry.2 = a)
    (h : rule.AcceptsAll found
      (Deed.inOrder (unreplaced Prod.fst puts) (unreplaced Prod.fst deletes))) :
    rule.cell found (Deed.inOrder puts deletes) =
      rule.cell found (Deed.inOrder (unreplaced Prod.fst puts) (unreplaced Prod.fst deletes)) := by
  obtain ⟨hputs, hdeletes⟩ := acceptsAll_append.1 h
  rw [Deed.inOrder, Deed.inOrder, cell_append, cell_append, cell_puts hputs,
    cell_deletes haddress hdeletes]

end Rule

namespace Deed

variable {puts : List (Bytes × Address × Bytes)} {deletes : List (Bytes × Address)} {a : Address}

def atAddress (a : Address) (deeds : List Deed) : List Deed :=
  deeds.filter fun deed => deed.address = a

theorem atAddress_inOrder :
    atAddress a (inOrder puts deletes) =
      inOrder (puts.filter fun entry => entry.2.1 = a)
        (deletes.filter fun entry => entry.2 = a) := by
  simp only [atAddress, inOrder, Deed.puts, Deed.deletes, List.filter_append, List.filter_map]
  rfl

theorem inOrder_eq_nil : inOrder puts deletes = [] ↔ puts = [] ∧ deletes = [] := by
  simp [inOrder, Deed.puts, Deed.deletes]

end Deed

section Site

variable {β ω : Type} [Backend β ω]

/-- At sites that serve, single puts and deletes follow a rule. -/
structure Addresswise (rule : Rule) (content : β → Address → Option Bytes)
    (serves : Site β → Prop) : Prop where
  /-- One that is accepted changes the block at its address. -/
  accepted : ∀ {s : Site β} {deed : Deed}, serves s →
    rule.accepts (content s.backend deed.address) deed = true →
    ∃ t, s.make deed.request = (t, .ok ()) ∧ serves t ∧
      content t.backend = Function.update (content s.backend) deed.address deed.leaves
  /-- One that is refused changes no block. -/
  refused : ∀ {s : Site β} {deed : Deed}, serves s →
    rule.accepts (content s.backend deed.address) deed = false →
    ∃ t e, s.make deed.request = (t, .error e) ∧ serves t ∧ content t.backend = content s.backend

variable {rule : Rule} {content : β → Address → Option Bytes} {serves : Site β → Prop}
  (H : Addresswise rule content serves) {s t : Site β}
include H

theorem Addresswise.make (hserves : serves s) (deed : Deed) (a : Address) :
    serves (s.make deed.request).1 ∧
      content (s.make deed.request).1.backend a =
        rule.cell (content s.backend a) (Deed.atAddress a [deed]) := by
  cases haccepts : rule.accepts (content s.backend deed.address) deed with
  | true =>
    obtain ⟨t, hmake, hnext, hcontent⟩ := H.accepted hserves haccepts
    rw [hmake]
    refine ⟨hnext, ?_⟩
    rw [hcontent]
    by_cases haddress : deed.address = a
    · subst haddress
      simp [Deed.atAddress, Rule.cell, haccepts]
    · simp [Deed.atAddress, Rule.cell, haddress, Function.update_of_ne (Ne.symm haddress)]
  | false =>
    obtain ⟨t, e, hmake, hnext, hcontent⟩ := H.refused hserves haccepts
    rw [hmake]
    refine ⟨hnext, ?_⟩
    rw [hcontent]
    by_cases haddress : deed.address = a
    · subst haddress
      simp [Deed.atAddress, Rule.cell, haccepts]
    · simp [Deed.atAddress, Rule.cell, haddress]

/-- What becomes of the block at an address is told by the deeds there. -/
theorem Addresswise.makeAll (hserves : serves s) (deeds : List Deed) (a : Address) :
    content (s.makeAll deeds).backend a =
      rule.cell (content s.backend a) (Deed.atAddress a deeds) := by
  induction deeds generalizing s with
  | nil => rfl
  | cons deed rest ih =>
    obtain ⟨hnext, hcontent⟩ := H.make hserves deed a
    have hsplit : Deed.atAddress a (deed :: rest) =
        Deed.atAddress a [deed] ++ Deed.atAddress a rest := by
      simp only [Deed.atAddress, ← List.filter_append, List.cons_append, List.nil_append]
    rw [hsplit, Rule.cell_append, ← hcontent]
    exact ih hnext

theorem Addresswise.acceptsAll (hserves : serves s) {deeds : List Deed}
    (hmade : s.makeEach deeds = (t, .ok ())) (a : Address) :
    rule.AcceptsAll (content s.backend a) (Deed.atAddress a deeds) := by
  induction deeds generalizing s with
  | nil => trivial
  | cons deed rest ih =>
    obtain ⟨next, hmake, hrest⟩ := runSteps_cons_eq_ok_iff.1 hmade
    cases haccepts : rule.accepts (content s.backend deed.address) deed with
    | false =>
      -- A deed that is refused would have ended the run.
      obtain ⟨_, e, hrefused, _⟩ := H.refused hserves haccepts
      cases hmake.symm.trans hrefused
    | true =>
      obtain ⟨_, haccepted, hnext, hcontent⟩ := H.accepted hserves haccepts
      cases hmake.symm.trans haccepted
      have hothers := ih hnext hrest
      rw [hcontent] at hothers
      by_cases haddress : deed.address = a
      · subst haddress
        rw [Function.update_self] at hothers
        rw [Deed.atAddress, List.filter_cons_of_pos (by simp)]
        exact ⟨haccepts, hothers⟩
      · rw [Function.update_of_ne (Ne.symm haddress)] at hothers
        rw [Deed.atAddress, List.filter_cons_of_neg (by simpa using haddress)]
        exact hothers

end Site

/-- A deed changes what is found at its address. -/
theorem Deed.find?_onRows (deed : Deed) (rows : List (Address × Bytes)) (a : Address) :
    Assoc.find? a (deed.onRows rows) =
      Function.update (fun b => Assoc.find? b rows) deed.address deed.leaves a := by
  by_cases haddress : a = deed.address
  · subst haddress
    rw [Function.update_self]
    cases deed with
    | put raw a value => exact Assoc.find?_insert_self a value rows
    | delete raw a => exact Assoc.find?_erase_self a rows
  · rw [Function.update_of_ne haddress]
    cases deed with
    | put raw b value => exact Assoc.find?_insert_of_ne haddress value rows
    | delete raw b => exact Assoc.find?_erase_of_ne haddress rows

namespace BlockService

/-- A block service accepts what is not at an address with a fault. -/
def rule (f : Faults) : Rule where
  put a _ := (f.check a).isOk
  delete a _ := (f.check a).isOk

theorem accepts_rule (f : Faults) (found : Option Bytes) (deed : Deed) :
    (rule f).accepts found deed = (f.check deed.address).isOk := by
  cases deed <;> rfl

variable {s : Site BlockService} {deed : Deed}

theorem make_accepted (h : s.backend.store.faults.check deed.address = .ok ()) :
    ∃ t, s.make deed.request = (t, .ok ()) ∧
      t.backend.store.faults = s.backend.store.faults ∧
      t.backend.store.blocks = deed.onRows s.backend.store.blocks := by
  cases deed with
  | put raw a value =>
    obtain ⟨calls, hput⟩ := make_put h raw value
    exact ⟨_, hput, rfl, rfl⟩
  | delete raw a =>
    obtain ⟨calls, hremove⟩ := step_remove h
    exact ⟨_, hremove, rfl, rfl⟩

theorem make_refused {e : StoreError}
    (h : s.backend.store.faults.check deed.address = .error e) :
    ∃ t, s.make deed.request = (t, .error e) ∧
      t.backend.store.faults = s.backend.store.faults ∧
      t.backend.store.blocks = s.backend.store.blocks := by
  cases deed with
  | put raw a value =>
    obtain ⟨calls, hstore⟩ := BlockStore.store_of_error (a := a) h value
    have hperform : Backend.perform s.backend (.store a value) =
        ({ s.backend with store := { s.backend.store with calls } }, .error e) := by
      show s.backend.perform (.store a value) = _
      simp only [perform, hstore]
    have hstep : s.step (.perform (.store a value)) = (site s [] [] calls, .error e) := by
      simp only [Site.step, hperform]
      rfl
    exact ⟨_, runSteps_cons_error hstep [], rfl, rfl⟩
  | delete raw a =>
    obtain ⟨calls, hstep⟩ := step_remove_error h
    exact ⟨_, runSteps_cons_error hstep [.forget a], rfl, rfl⟩

theorem addresswise (f : Faults) :
    Addresswise (rule f) (fun d => d.store.peek)
      fun s : Site BlockService => s.backend.store.faults = f where
  accepted := by
    intro s deed hserves haccepts
    subst hserves
    rw [accepts_rule] at haccepts
    cases hcheck : s.backend.store.faults.check deed.address with
    | error e =>
      rw [hcheck] at haccepts
      cases haccepts
    | ok =>
      obtain ⟨t, hmake, hfaults, hblocks⟩ := make_accepted hcheck
      refine ⟨t, hmake, hfaults, funext fun a => ?_⟩
      rw [BlockStore.peek, hblocks]
      exact deed.find?_onRows s.backend.store.blocks a
  refused := by
    intro s deed hserves hrefuses
    subst hserves
    rw [accepts_rule] at hrefuses
    cases hcheck : s.backend.store.faults.check deed.address with
    | ok =>
      rw [hcheck] at hrefuses
      cases hrefuses
    | error e =>
      obtain ⟨t, hmake, hfaults, hblocks⟩ := make_refused hcheck
      refine ⟨t, e, hmake, hfaults, funext fun a => ?_⟩
      rw [BlockStore.peek, hblocks]
      rfl

end BlockService

namespace Relational

def rule (guards : Guards) : Rule where
  put _ value := guards.insertion ≠ some value
  delete _ found := guards.deletion = none ∨ found ≠ guards.deletion

/-- A database that is open to writes and has both tables, with the given guards. -/
structure Takes (guards : Guards) (d : Relational) : Prop where
  guards : d.guards = guards
  isOpen : d.isOpen = true
  writable : d.readOnly = false
  tables : ∃ rows entries, d.tables = ⟨some rows, .rows entries⟩

section Statements

variable (guards : Guards) (rows : List (Address × Bytes)) (entries : List (Bytes × Address))
  (a : Address)

theorem exec_upsertBlock_rows (value : Bytes) :
    Tables.exec guards ⟨some rows, .rows entries⟩ (.upsertBlock a value) =
      if (rule guards).put a value then .ok ⟨some (Assoc.insert a value rows), .rows entries⟩
      else .error guarded := by
  by_cases hguard : guards.insertion = some value
  · simp [Tables.exec, Tables.blockRows, rule, hguard, bind, Except.bind]
  · simp [Tables.exec, Tables.blockRows, rule, hguard, bind, Except.bind, pure, Except.pure]

theorem exec_deleteBlock_rows :
    Tables.exec guards ⟨some rows, .rows entries⟩ (.deleteBlock a) =
      if (rule guards).delete a (Assoc.find? a rows) then
        .ok ⟨some (Assoc.erase a rows), .rows entries⟩
      else .error guarded := by
  obtain ⟨insertion, deletion⟩ := guards
  cases deletion with
  | none => rfl
  | some guard =>
    cases hfound : Assoc.find? a rows with
    | none =>
      simp [Tables.exec, Tables.blockRows, rule, hfound, bind, Except.bind, pure, Except.pure]
    | some value =>
      by_cases hguard : guard = value
      · simp [Tables.exec, Tables.blockRows, rule, hfound, hguard, bind, Except.bind]
      · simp [Tables.exec, Tables.blockRows, rule, hfound, hguard, Ne.symm hguard, bind,
          Except.bind, pure, Except.pure]

theorem execAll_deed_rows (deed : Deed) :
    Tables.execAll guards ⟨some rows, .rows entries⟩ deed.statements =
      if (rule guards).accepts (Assoc.find? deed.address rows) deed then
        .ok (Tables.afterDeed ⟨some rows, .rows entries⟩ deed)
      else .error guarded := by
  cases deed with
  | put raw a value =>
    have hexec : Tables.execAll guards ⟨some rows, .rows entries⟩
          (Deed.put raw a value).statements =
        Tables.exec guards ⟨some rows, .rows entries⟩ (.upsertBlock a value) >>= fun t =>
          Tables.execAll guards t [.upsertPreimage raw a] := rfl
    show _ = if (rule guards).put a value then _ else _
    rw [hexec, exec_upsertBlock_rows]
    cases (rule guards).put a value <;> rfl
  | delete raw a =>
    have hexec : Tables.execAll guards ⟨some rows, .rows entries⟩
          (Deed.delete raw a).statements =
        Tables.exec guards ⟨some rows, .rows ((Assoc.erase raw entries).filter
          fun row => row.2 ≠ a)⟩ (.deleteBlock a) >>= fun t => Tables.execAll guards t [] := rfl
    show _ = if (rule guards).delete a (Assoc.find? a rows) then _ else _
    rw [hexec, exec_deleteBlock_rows]
    cases (rule guards).delete a (Assoc.find? a rows) <;> rfl

end Statements

variable {s : Site Relational} {deed : Deed}

theorem blockAt?_rows {d : Relational} {rows : List (Address × Bytes)}
    {preimages : PreimageTable} (htables : d.tables = ⟨some rows, preimages⟩) :
    d.blockAt? = fun a => Assoc.find? a rows := by
  unfold blockAt?
  rw [htables]
  rfl

theorem afterDeed_rows (rows : List (Address × Bytes)) (entries : List (Bytes × Address))
    (deed : Deed) : ∃ left, Tables.afterDeed ⟨some rows, .rows entries⟩ deed =
      ⟨some (deed.onRows rows), .rows left⟩ := by
  cases deed <;> exact ⟨_, rfl⟩

theorem statements_request (deed : Deed) :
    deed.request.deeds.flatMap Deed.statements = deed.statements := by
  rw [deed.deeds_request, List.flatMap_singleton]

theorem addresswise (guards : Guards) :
    Addresswise (rule guards) blockAt? fun s : Site Relational => s.backend.Takes guards where
  accepted := by
    intro s deed htakes haccepts
    obtain ⟨rows, entries, htables⟩ := htakes.tables
    obtain ⟨left, hafter⟩ := afterDeed_rows rows entries deed
    rw [blockAt?_rows htables] at haccepts
    have hexec : s.backend.tables.execAll s.backend.guards
        (deed.request.deeds.flatMap Deed.statements) =
          .ok ⟨some (deed.onRows rows), .rows left⟩ := by
      rw [statements_request, htables, htakes.guards, execAll_deed_rows, if_pos haccepts, hafter]
    refine ⟨_, make_of_execAll htakes.isOpen htakes.writable hexec,
      ⟨htakes.guards, htakes.isOpen, htakes.writable, _, _, rfl⟩, funext fun a => ?_⟩
    rw [blockAt?_rows htables, blockAt?_rows rfl]
    exact deed.find?_onRows rows a
  refused := by
    intro s deed htakes hrefuses
    obtain ⟨rows, entries, htables⟩ := htakes.tables
    rw [blockAt?_rows htables] at hrefuses
    rcases make_cases s deed.request with ⟨tables, hexec, _⟩ | ⟨e, hmake⟩
    · rw [statements_request, htables, htakes.guards, execAll_deed_rows, hrefuses] at hexec
      cases hexec
    · exact ⟨s, e, hmake, htakes, rfl⟩

/-- A deed is done only in tables that are both there. -/
theorem rows_of_execAll_deed {guards : Guards} {t t' : Tables}
    (h : t.execAll guards deed.statements = .ok t') :
    ∃ rows entries, t = ⟨some rows, .rows entries⟩ := by
  obtain ⟨blocks, preimages⟩ := t
  cases deed with
  | put raw a value =>
    obtain ⟨upserted, hblock, hrest⟩ := Tables.execAll_cons.1 h
    obtain ⟨rows, hblocks, rfl⟩ := Tables.exec_upsertBlock hblock
    obtain ⟨left, hkey, _⟩ := Tables.execAll_cons.1 hrest
    cases hblocks
    cases preimages with
    | rows entries => exact ⟨rows, entries, rfl⟩
    | missing | foreign => cases hkey
  | delete raw a =>
    obtain ⟨unkeyed, hkey, hrest⟩ := Tables.execAll_cons.1 h
    cases preimages with
    | missing | foreign => cases hkey
    | rows entries =>
      obtain rfl := Tables.exec_deletePreimage hkey
      obtain ⟨unnamed, haliases, hrest⟩ := Tables.execAll_cons.1 hrest
      obtain rfl := Tables.exec_deletePreimagesOf haliases
      obtain ⟨left, hblock, _⟩ := Tables.execAll_cons.1 hrest
      obtain ⟨rows, hblocks, _⟩ := Tables.exec_deleteBlock hblock
      have hblocks : blocks = some rows := hblocks
      exact ⟨rows, entries, by rw [hblocks]⟩

/-- Where a deed was made, others can be made. -/
theorem takes_of_make {t : Site Relational} (hmake : s.make deed.request = (t, .ok ())) :
    s.backend.Takes s.backend.guards := by
  have hsome : deed.request.deeds ≠ [] := by
    rw [deed.deeds_request]
    exact List.cons_ne_nil deed []
  obtain ⟨hopen, hwritable⟩ := writable_of_make hsome hmake
  rcases make_cases s deed.request with ⟨tables, hexec, _⟩ | ⟨e, hfails⟩
  · rw [statements_request] at hexec
    exact ⟨rfl, hopen, hwritable, rows_of_execAll_deed hexec⟩
  · cases hmake.symm.trans hfails

end Relational

end KeyedBlocks
