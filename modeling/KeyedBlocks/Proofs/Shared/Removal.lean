import KeyedBlocks.Blocks.Service
import KeyedBlocks.Proofs.Relational.Statements

/-!
The plans of the writes that remove blocks. At either kind of backend a change that removes a block
leaves none behind, every write that is to remove a block makes such a change, and after it the
cache forgets the address before the write makes any other change.
-/
namespace KeyedBlocks

def Request.Removes (a : Address) : Request → Prop
  | .put .. => False
  | .delete _ other => other = a
  | .flush b => a ∈ b.deleteList.map Prod.snd

/-- What the plans at a backend keep to, with `removes` telling which changes remove a block. -/
structure Orderly (β : Type) {ω : Type} [Backend β ω] (removes : ω → Address → Prop) : Prop where
  gone : ∀ (backend : β) change a, removes change a →
    (Backend.perform backend change).2 = .ok () →
    Backend.read (Backend.perform backend change).1 a = .ok none
  planned : ∀ (request : Request) a, request.Removes a → ∃ before change after,
    request.plan β = before ++ .perform change :: after ∧ removes change a
  forgotten : ∀ (request : Request) a before change after,
    request.plan β = before ++ .perform change :: after → removes change a →
    ∃ (others : List Address) (rest : List (Effect ω)),
      after = others.map .forget ++ .forget a :: rest

def BlockWrite.Removes : BlockWrite → Address → Prop
  | .remove a, other => a = other
  | _, _ => False

namespace BlockService

theorem gone {s : BlockService} {change : BlockWrite} {a : Address} (hremoves : change.Removes a)
    (hok : (s.perform change).2 = .ok ()) : (s.perform change).1.store.read a = .ok none := by
  cases change with
  | remove other =>
    obtain rfl : other = a := hremoves
    simp only [perform, BlockStore.remove] at hok ⊢
    cases hcheck : s.store.faults.check other with
    | error e =>
      simp only [hcheck] at hok
      cases hok
    | ok =>
      simp only [BlockStore.read, BlockStore.peek, hcheck, Assoc.find?_erase_self]
      rfl
  | store => exact absurd hremoves id
  | storeAll => exact absurd hremoves id

/-- In the deletes of a batch each removal is followed by its address in the cache. -/
theorem forgotten_of_deletes {deletes : List (Bytes × Address)} {a : Address} {change : BlockWrite}
    {before after : List (Effect BlockWrite)} (hremoves : change.Removes a)
    (hplan : deletes.flatMap (fun entry => [.perform (.remove entry.2), .forget entry.2]) =
      before ++ .perform change :: after) :
    ∃ rest, after = .forget a :: rest := by
  induction deletes generalizing before with
  | nil => simp at hplan
  | cons entry deletes ih =>
    simp only [List.flatMap_cons, List.cons_append, List.nil_append] at hplan
    cases before with
    | nil =>
      cases hplan
      obtain rfl : entry.2 = a := hremoves
      exact ⟨_, rfl⟩
    | cons first before =>
      have hrest := (List.cons.inj hplan).2
      cases before with
      | nil => cases hrest
      | cons second before => exact ih (List.cons.inj hrest).2

theorem forgotten_of_flush {b : Buffer} {a : Address} {change : BlockWrite}
    {before after : List (Effect BlockWrite)} (hremoves : change.Removes a)
    (hplan : flush b = before ++ .perform change :: after) : ∃ rest, after = .forget a :: rest := by
  simp only [flush] at hplan
  split at hplan
  · exact forgotten_of_deletes hremoves hplan
  · cases before with
    | nil =>
      cases hplan
      exact absurd hremoves id
    | cons first before => exact forgotten_of_deletes hremoves (List.cons.inj hplan).2

theorem planned_of_flush {b : Buffer} {a : Address} (h : a ∈ b.deleteList.map Prod.snd) :
    ∃ before after, flush b = before ++ .perform (.remove a) :: after := by
  obtain ⟨entry, hmem, rfl⟩ := List.mem_map.1 h
  have hstep : .perform (.remove entry.2) ∈ flush b :=
    List.mem_append_right _ (List.mem_flatMap.2 ⟨entry, hmem, List.mem_cons_self ..⟩)
  exact List.append_of_mem hstep

theorem orderly : Orderly BlockService BlockWrite.Removes where
  gone _ _ _ hremoves hok := gone hremoves hok
  planned request a hrequest := by
    cases request with
    | put => exact absurd hrequest id
    | delete raw other => exact ⟨[], .remove other, [.forget other], rfl, hrequest⟩
    | flush b =>
      obtain ⟨before, after, hplan⟩ := planned_of_flush hrequest
      exact ⟨before, .remove a, after, hplan, rfl⟩
  forgotten request a before change after hplan hremoves := by
    cases request with
    | put raw other value =>
      obtain ⟨rfl, hchange⟩ | ⟨_, _, hnil⟩ := List.cons_eq_append_iff.1 hplan
      · cases hchange
        exact absurd hremoves id
      · simp at hnil
    | delete raw other =>
      obtain ⟨rfl, hchange⟩ | ⟨front, _, hrest⟩ := List.cons_eq_append_iff.1 hplan
      · cases hchange
        obtain rfl : other = a := hremoves
        exact ⟨[], [], rfl⟩
      · cases front <;> simp at hrest
    | flush b =>
      obtain ⟨rest, rfl⟩ := forgotten_of_flush hremoves hplan
      exact ⟨[], rest, rfl⟩

end BlockService

/-- The statements of a transaction drop a block and do not write it again. -/
def Statement.Remove (statements : List Statement) (a : Address) : Prop :=
  ∃ before after, statements = before ++ .deleteBlock a :: after ∧
    ∀ value, .upsertBlock a value ∉ after

theorem Statement.mem_of_remove {statements : List Statement} {a : Address}
    (h : Statement.Remove statements a) : .deleteBlock a ∈ statements := by
  obtain ⟨before, after, rfl, _⟩ := h
  exact List.mem_append_right _ (List.mem_cons_self ..)

namespace Relational

theorem gone {d : Relational} {statements : List Statement} {a : Address}
    (hremove : Statement.Remove statements a) (hok : (d.transaction statements).2 = .ok ()) :
    (d.transaction statements).1.read a = .ok none := by
  obtain ⟨before, after, rfl, hafter⟩ := hremove
  obtain ⟨hopen, tables, hexec, hresult⟩ := execAll_of_transaction (by simp) hok
  obtain ⟨middle, _, hrest⟩ := Tables.execAll_append.1 hexec
  obtain ⟨next, hdelete, hlater⟩ := Tables.execAll_cons.1 hrest
  obtain ⟨rows, hblocks, hfind⟩ := (Tables.lacks_of_deleteBlock hdelete).execAll hafter hlater
  rw [hresult]
  simp only [read, query, hopen, if_true, Tables.read, Tables.blockRows, hblocks]
  exact congrArg Except.ok hfind

theorem remove_deleteStatements (raw : Bytes) (a : Address) :
    Statement.Remove (deleteStatements raw a) a :=
  ⟨[.deletePreimage raw, .deletePreimagesOf a], [], rfl, fun _ => List.not_mem_nil⟩

theorem upsertBlock_notMem_deletes (deletes : List (Bytes × Address)) (a : Address)
    (value : Bytes) :
    .upsertBlock a value ∉ deletes.flatMap fun entry => deleteStatements entry.1 entry.2 := by
  intro hmem
  obtain ⟨entry, _, hstatement⟩ := List.mem_flatMap.1 hmem
  simp [deleteStatements] at hstatement

theorem remove_batchStatements {b : Buffer} {a : Address} (h : a ∈ b.deleteList.map Prod.snd) :
    Statement.Remove (batchStatements b) a := by
  obtain ⟨entry, hmem, rfl⟩ := List.mem_map.1 h
  obtain ⟨before, after, hsplit⟩ := List.append_of_mem hmem
  refine ⟨(b.putList.flatMap fun entry => putStatements entry.1 entry.2.1 entry.2.2) ++
    before.flatMap (fun entry => deleteStatements entry.1 entry.2) ++
      [.deletePreimage entry.1, .deletePreimagesOf entry.2],
    after.flatMap fun entry => deleteStatements entry.1 entry.2, ?_,
    upsertBlock_notMem_deletes after entry.2⟩
  simp [batchStatements, hsplit, deleteStatements]

theorem mem_of_remove_batchStatements {b : Buffer} {a : Address}
    (h : Statement.Remove (batchStatements b) a) : a ∈ b.deleteList.map Prod.snd := by
  rcases List.mem_append.1 (Statement.mem_of_remove h) with hput | hdelete
  · obtain ⟨entry, _, hstatement⟩ := List.mem_flatMap.1 hput
    simp [putStatements] at hstatement
  · obtain ⟨entry, hentry, hstatement⟩ := List.mem_flatMap.1 hdelete
    have haddress : a = entry.2 := by simpa [deleteStatements] using hstatement
    exact List.mem_map.2 ⟨entry, hentry, haddress.symm⟩

theorem isEmpty_of_mem {b : Buffer} {a : Address} (h : a ∈ b.deleteList.map Prod.snd) :
    b.isEmpty = false := by
  obtain ⟨entry, hmem, _⟩ := List.mem_map.1 h
  obtain ⟨key, _, hpeek⟩ := List.mem_filterMap.1 hmem
  have hentries : b.deletes.entries ≠ [] := by
    intro hnil
    simp [RecencyMap.peek, RecencyMap.slot?, hnil] at hpeek
  simp [Buffer.isEmpty, RecencyMap.isEmpty, hentries]

theorem flush_of_mem {b : Buffer} {a : Address} (h : a ∈ b.deleteList.map Prod.snd) :
    flush b = .perform (batchStatements b) :: b.deleteList.map fun entry => .forget entry.2 := by
  simp [flush, isEmpty_of_mem h]

/-- A batch is one change, after which the cache forgets all addresses of its deletes. -/
theorem forgotten_of_flush {b : Buffer} {a : Address} {change : List Statement}
    {before after : List (Effect (List Statement))} (hremove : Statement.Remove change a)
    (hplan : flush b = before ++ .perform change :: after) :
    ∃ (others : List Address) (rest : List (Effect (List Statement))),
      after = others.map .forget ++ .forget a :: rest := by
  unfold flush at hplan
  split at hplan
  · simp at hplan
  · cases before with
    | nil =>
      obtain ⟨hchange, hafter⟩ := List.cons.inj hplan
      cases hchange
      obtain ⟨entry, hmem, rfl⟩ := List.mem_map.1 (mem_of_remove_batchStatements hremove)
      obtain ⟨front, back, hsplit⟩ := List.append_of_mem hmem
      refine ⟨front.map Prod.snd, back.map fun entry => .forget entry.2, ?_⟩
      rw [← hafter, hsplit]
      simp
    | cons first before =>
      have hmem : .perform change ∈ b.deleteList.map fun entry => Effect.forget entry.2 := by
        rw [(List.cons.inj hplan).2]
        exact List.mem_append_right _ (List.mem_cons_self ..)
      obtain ⟨entry, _, hentry⟩ := List.mem_map.1 hmem
      cases hentry

theorem orderly : Orderly Relational Statement.Remove where
  gone _ _ _ hremoves hok := gone hremoves hok
  planned request a hrequest := by
    cases request with
    | put => exact absurd hrequest id
    | delete raw other =>
      obtain rfl : other = a := hrequest
      exact ⟨[], deleteStatements raw other, [.forget other], rfl,
        remove_deleteStatements raw other⟩
    | flush b =>
      exact ⟨[], batchStatements b, _, flush_of_mem hrequest, remove_batchStatements hrequest⟩
  forgotten request a before change after hplan hremoves := by
    cases request with
    | put raw other value =>
      obtain ⟨rfl, hchange⟩ | ⟨_, _, hnil⟩ := List.cons_eq_append_iff.1 hplan
      · cases hchange
        have hmem : .deleteBlock a ∈ putStatements raw other value :=
          Statement.mem_of_remove hremoves
        simp [putStatements] at hmem
      · simp at hnil
    | delete raw other =>
      obtain ⟨rfl, hchange⟩ | ⟨front, _, hrest⟩ := List.cons_eq_append_iff.1 hplan
      · cases hchange
        have hmem : .deleteBlock a ∈ deleteStatements raw other := Statement.mem_of_remove hremoves
        obtain rfl : a = other := by simpa [deleteStatements] using hmem
        exact ⟨[], [], rfl⟩
      · cases front <;> simp at hrest
    | flush b => exact forgotten_of_flush hremoves hplan

end Relational

end KeyedBlocks
