import KeyedBlocks.Proofs.Backends.Cells

/-!
Batches beside direct use. A batch that accepts all it is given and is then written comes to what
the same puts and deletes come to when they are made on the database itself, puts before deletes,
less those that a later one of the same raw key replaces. Those that are replaced make no difference
at an address as long as the raw keys that lead there lead nowhere else. But the same raw key may be
given as one class and then as another; the batch then forgets the first of two addresses, where
direct calls would have written both.
-/
namespace KeyedBlocks

namespace KeyForm

def FilesUnder (scheme : Scheme) (k : KeyForm) (a : Address) : Prop :=
  ∃ raw, k.file scheme = .ok (raw, a)

/-- Of keys with the same bytes all are filed under an address or none is. -/
def FiledAlike (scheme : Scheme) (keys : List KeyForm) (a : Address) : Prop :=
  ∀ k ∈ keys, ∀ other ∈ keys, k.bytes = other.bytes → k.FilesUnder scheme a →
    other.FilesUnder scheme a

end KeyForm

theorem exists_of_forall₂ {α β : Type} {R : α → β → Prop} {xs : List α} {ys : List β}
    (h : List.Forall₂ R xs ys) {y : β} (hmem : y ∈ ys) : ∃ x ∈ xs, R x y := by
  induction h with
  | nil => exact absurd hmem List.not_mem_nil
  | @cons x first xs ys hfirst _ ih =>
    rcases List.mem_cons.1 hmem with rfl | hrest
    · exact ⟨x, List.mem_cons_self .., hfirst⟩
    · obtain ⟨other, hother, hmatch⟩ := ih hrest
      exact ⟨other, List.mem_cons_of_mem x hother, hmatch⟩

namespace Session

variable {β ω : Type} [Backend β ω]

/-- What comes of the write of a batch after some calls, beside what comes of direct calls in its
place. Sites are compared by `same`, and the blocks of a backend are told by `content`. -/
structure WrittenAsDirect (same : Site β → Site β → Prop) (content : β → Address → Option Bytes)
    (h : Handle) (pace : β → Nat → β) (s : Session (Site β) Buffer) (batch : Nat)
    (calls : List Call) : Prop where
  /-- The write is the same as all puts and then all deletes that no later one of the same raw key
  replaces. -/
  last : same ((s.run (h.facade pace) calls).step (h.facade pace) (.batchWrite batch)).1.site
    ((s.run (h.facade pace) calls).run (h.facade pace)
      (direct (unreplaced (fun entry => entry.1.bytes) (putsInto batch calls))
        (unreplaced KeyForm.bytes (deletesInto batch calls)))).site
  /-- Where keys are filed alike, it leaves the same block as all puts and then all deletes. -/
  all : ∀ a, KeyForm.FiledAlike h.scheme ((putsInto batch calls).map Prod.fst) a →
    KeyForm.FiledAlike h.scheme (deletesInto batch calls) a →
    content ((s.run (h.facade pace) calls).step (h.facade pace) (.batchWrite batch)).1.site.backend
        a =
      content ((s.run (h.facade pace) calls).run (h.facade pace)
        (direct (putsInto batch calls) (deletesInto batch calls))).site.backend a

variable {h : Handle} {pace : β → Nat → β} {s : Session (Site β) Buffer} {batch : Nat} {b : Buffer}
  {calls : List Call} {log : List Deed} {puts : List (KeyForm × Bytes)} {deletes : List KeyForm}
  {a : Address}

/-- Where keys are filed alike under an address, equal raw keys are filed there or elsewhere
together. -/
theorem address_eq_of_filed {γ δ : Type} (form : γ → KeyForm) (filed : δ → Bytes × Address)
    {scheme : Scheme} {given : List γ} {entries : List δ}
    (hfiles : List.Forall₂ (fun x y => (form x).file scheme = .ok (filed y)) given entries)
    (halike : KeyForm.FiledAlike scheme (given.map form) a) :
    ∀ y ∈ entries, ∀ z ∈ entries, (filed y).1 = (filed z).1 → (filed y).2 = a →
      (filed z).2 = a := by
  intro y hy z hz hkey haddress
  obtain ⟨x, hx, hfile⟩ := exists_of_forall₂ hfiles hy
  obtain ⟨other, hother, hfile'⟩ := exists_of_forall₂ hfiles hz
  have hbytes : (form x).bytes = (form other).bytes := by
    rw [← KeyForm.bytes_of_file hfile, ← KeyForm.bytes_of_file hfile']
    exact hkey
  obtain ⟨raw, hunder⟩ := halike (form x) (List.mem_map_of_mem hx) (form other)
    (List.mem_map_of_mem hother) hbytes ⟨(filed y).1, by rw [hfile, ← haddress]⟩
  exact congrArg Prod.snd (Except.ok.inj (hfile'.symm.trans hunder))

/-- The block at an address where keys are filed alike is the same whether writes that are replaced
are made or not. -/
theorem FiledAs.content_eq {rule : Rule} {content : β → Address → Option Bytes}
    {serves : Site β → Prop} (H : Addresswise rule content serves) {s t : Site β}
    (hserves : serves s) {scheme : Scheme} (hfiled : FiledAs scheme puts deletes log)
    (hputs : KeyForm.FiledAlike scheme (puts.map Prod.fst) a)
    (hdeletes : KeyForm.FiledAlike scheme deletes a)
    (hmade : s.makeEach (Deed.inOrder (unreplaced Prod.fst (putsOf log))
      (unreplaced Prod.fst (deletesOf log))) = (t, .ok ())) :
    content t.backend a =
      content (s.makeAll (Deed.inOrder (putsOf log) (deletesOf log))).backend a := by
  have hkeys : List.Forall₂ (fun entry filed => entry.1.file scheme = .ok (filed.1, filed.2.1))
      puts (putsOf log) := hfiled.puts.imp fun _ _ hfiles => hfiles.1
  have hputs := address_eq_of_filed Prod.fst
    (fun entry : Bytes × Address × Bytes => (entry.1, entry.2.1)) hkeys hputs
  have hdeletes := address_eq_of_filed id id hfiled.deletes (by rwa [List.map_id])
  have haccepts := H.acceptsAll hserves hmade a
  -- As equal keys are filed alike, what is replaced at the address is replaced by deeds there.
  rw [Deed.atAddress_inOrder, filter_unreplaced (by simpa using hputs),
    filter_unreplaced (by simpa using hdeletes)] at haccepts
  rw [← Site.makeAll_of_makeEach hmade, H.makeAll hserves, H.makeAll hserves,
    Deed.atAddress_inOrder, Deed.atAddress_inOrder, filter_unreplaced (by simpa using hputs),
    filter_unreplaced (by simpa using hdeletes)]
  refine (Rule.cell_unreplaced (a := a) ?_ haccepts).symm
  intro entry hmem
  simpa using (List.mem_filter.1 hmem).2

/-- So it is wherever single deeds follow a rule once one of them is made. -/
theorem FiledAs.content_of_makeEach {content : β → Address → Option Bytes} {s t : Site β}
    (hrule : ∀ (deed : Deed) next, s.make deed.request = (next, .ok ()) →
      ∃ rule serves, Addresswise rule content serves ∧ serves s)
    {scheme : Scheme} (hfiled : FiledAs scheme puts deletes log)
    (hputs : KeyForm.FiledAlike scheme (puts.map Prod.fst) a)
    (hdeletes : KeyForm.FiledAlike scheme deletes a)
    (hmade : s.makeEach (Deed.inOrder (unreplaced Prod.fst (putsOf log))
      (unreplaced Prod.fst (deletesOf log))) = (t, .ok ())) :
    content t.backend a =
      content (s.makeAll (Deed.inOrder (putsOf log) (deletesOf log))).backend a := by
  cases hall : Deed.inOrder (unreplaced Prod.fst (putsOf log))
      (unreplaced Prod.fst (deletesOf log)) with
  | nil =>
    -- Nothing was buffered, and then the database may not be open to writes at all.
    obtain ⟨hnoPuts, hnoDeletes⟩ := Deed.inOrder_eq_nil.1 hall
    rw [hall] at hmade
    obtain rfl : s = t := congrArg Prod.fst hmade
    rw [unreplaced_eq_nil.1 hnoPuts, unreplaced_eq_nil.1 hnoDeletes]
    rfl
  | cons deed rest =>
    have hfirst := hmade
    rw [hall] at hfirst
    obtain ⟨next, hmake, _⟩ := runSteps_cons_eq_ok_iff.1 hfirst
    obtain ⟨rule, serves, H, hserves⟩ := hrule deed next hmake
    exact hfiled.content_eq H hserves hputs hdeletes hmade

theorem flush_of_written (hbatch : s.batches[batch]? = some b)
    (hwritten : (s.step (h.facade pace) (.batchWrite batch)).2 = .did (.ok ())) :
    s.site.flush b = ((s.step (h.facade pace) (.batchWrite batch)).1.site, .ok ()) := by
  have hrequest : request? h s.batches (.batchWrite batch) = some (.flush b) :=
    congrArg (Option.map Request.flush) hbatch
  rw [step_of_request hrequest] at hwritten ⊢
  exact Prod.ext rfl (Reply.did.inj hwritten)

/-- A batch that has given up no key has the deeds that no later one of the same key replaces. -/
theorem deeds_of_keeps (hholds : b.Holds h log) (hkeeps : b.Keeps log) :
    b.deeds = Deed.inOrder (unreplaced Prod.fst (putsOf log))
      (unreplaced Prod.fst (deletesOf log)) := by
  rw [← hholds.putList_eq hkeeps, ← hholds.deleteList_eq hkeeps]
  rfl

/-- A batch that was empty, has accepted all it was given since and is then written. -/
theorem writtenAsDirect_of_empty {same : Site β → Site β → Prop}
    {content : β → Address → Option Bytes}
    (hpiecemeal : ∀ (s t : Site β) b, s.flush b = (t, .ok ()) →
      ∃ t', s.makeEach b.deeds = (t', .ok ()) ∧ same t t' ∧ content t.backend = content t'.backend)
    (hrule : ∀ (s : Site β) (deed : Deed) next, s.make deed.request = (next, .ok ()) →
      ∃ rule serves, Addresswise rule content serves ∧ serves s)
    (hbatch : s.batches[batch]? = some b) (hempty : b.Holds h [])
    (hkept : ∀ call ∈ calls, call ≠ .batchReset batch) (haccepts : s.Accepts h pace batch calls)
    (hwritten : ((s.run (h.facade pace) calls).step (h.facade pace) (.batchWrite batch)).2 =
      .did (.ok ())) :
    WrittenAsDirect same content h pace s batch calls := by
  obtain ⟨last, hlast, hholds, hkeeps⟩ := run_keeps hbatch hempty hkept haccepts
  have hfiled := run_filedAs hbatch hempty hkept haccepts
  obtain ⟨t', hmade, hsame, hcontent⟩ := hpiecemeal _ _ _ (flush_of_written hlast hwritten)
  rw [deeds_of_keeps hholds hkeeps] at hmade
  constructor
  case last =>
    have hputs := forall₂_unreplaced (fun _ _ hfiles => FilesPut.bytes hfiles) hfiled.puts
    have hdeletes := forall₂_unreplaced (fun _ _ hfiles => FilesDelete.bytes hfiles) hfiled.deletes
    rw [run_direct hputs hdeletes, Site.makeAll_of_makeEach hmade]
    exact hsame
  case all =>
    intro a hputs hdeletes
    rw [run_direct hfiled.puts hfiled.deletes, hcontent]
    exact hfiled.content_of_makeEach (hrule _) hputs hdeletes hmade

/-- A batch of either kind of database that accepts all it is given since it was created or reset,
and then is written. -/
theorem writtenAsDirect {batch : Nat} {start : Call} {earlier calls : List Call}
    (hkept : ∀ call ∈ calls, call ≠ .batchReset batch) :
    (∀ (d : BlockDatabase) (site : Site BlockService),
      let F := d.handle.facade BlockService.pace
      let s := run F ⟨site, []⟩ earlier
      s.Empties d.handle BlockService.pace batch start →
      (s.step F start).1.Accepts d.handle BlockService.pace batch calls →
      (((s.step F start).1.run F calls).step F (.batchWrite batch)).2 = .did (.ok ()) →
      WrittenAsDirect BlockService.Recounted (fun d a => d.store.peek a) d.handle BlockService.pace
        (s.step F start).1 batch calls) ∧
    ∀ (d : SqlDatabase) (site : Site Relational),
      let F := d.handle.facade Relational.pace
      let s := run F ⟨site, []⟩ earlier
      s.Empties d.handle Relational.pace batch start →
      (s.step F start).1.Accepts d.handle Relational.pace batch calls →
      (((s.step F start).1.run F calls).step F (.batchWrite batch)).2 = .did (.ok ()) →
      WrittenAsDirect Eq Relational.blockAt? d.handle Relational.pace (s.step F start).1 batch
        calls := by
  constructor
  · intro d site F s hempties haccepts hwritten
    obtain ⟨b, hbatch, hempty⟩ := hempties.holds (batches_hold BlockService.pace site earlier)
    refine writtenAsDirect_of_empty ?_ ?_ hbatch hempty hkept haccepts hwritten
    · intro s t b hflush
      obtain ⟨counted, hmade⟩ := BlockService.makeEach_of_flush hflush
      exact ⟨_, hmade, ⟨counted, rfl⟩, rfl⟩
    · intro s deed next _
      exact ⟨_, _, BlockService.addresswise s.backend.store.faults, rfl⟩
  · intro d site F s hempties haccepts hwritten
    obtain ⟨b, hbatch, hempty⟩ := hempties.holds (batches_hold Relational.pace site earlier)
    refine writtenAsDirect_of_empty ?_ ?_ hbatch hempty hkept haccepts hwritten
    · intro s t b hflush
      exact ⟨t, Relational.makeEach_of_flush hflush, rfl, rfl⟩
    · intro s deed next hmake
      exact ⟨_, _, Relational.addresswise s.backend.guards, Relational.takes_of_make hmake⟩

end Session

namespace Session.Replaced

def blocks : BlockDatabase := ⟨{}⟩

def tables : SqlDatabase := ⟨{}⟩

def digest : Bytes := List.replicate 32 7

/-- A key is put as an opaque one and then as a digest, and so is an alias; the alias is deleted. -/
def calls : List Call :=
  [.batchPut 0 (.typed (.ofLiteral digest)) [1], .batchPut 0 (.raw digest) [2],
    .batchPut 0 (.raw (preimageTag ++ partMark ++ digest)) [3],
    .batchDelete 0 (.typed (.ofLiteral (preimageTag ++ partMark ++ digest)))]

theorem kept : ∀ call ∈ calls, call ≠ .batchReset 0 := by
  intro call hmem
  simp only [calls, List.mem_cons, List.not_mem_nil, or_false] at hmem
  rcases hmem with rfl | rfl | rfl | rfl <;> exact nofun

def blocksStart : Session (Site BlockService) Buffer :=
  run (blocks.handle.facade BlockService.pace) ⟨⟨⟨{}, true⟩, .create {}, 0⟩, []⟩
    [.put (.raw digest) [9]]

def tablesStart : Session (Site Relational) Buffer :=
  run (tables.handle.facade Relational.pace) ⟨⟨.fresh 1, .create {}, 0⟩, []⟩
    [.put (.raw digest) [9]]

def literalAddress : Address :=
  match tables.handle.scheme.derive (.ofLiteral digest) with
  | .ok a => a
  | .error _ => ⟨""⟩

theorem blocks_empties : blocksStart.Empties blocks.handle BlockService.pace 0 .newBatch :=
  ⟨Or.inl ⟨rfl, rfl⟩, rfl⟩

theorem tables_empties : tablesStart.Empties tables.handle Relational.pace 0 .newBatch :=
  ⟨Or.inl ⟨rfl, rfl⟩, rfl⟩

theorem blocks_accepts :
    (blocksStart.step (blocks.handle.facade BlockService.pace) .newBatch).1.Accepts blocks.handle
      BlockService.pace 0 calls :=
  accepts_cons rfl (accepts_cons rfl (accepts_cons rfl (accepts_cons rfl accepts_nil)))

theorem tables_accepts :
    (tablesStart.step (tables.handle.facade Relational.pace) .newBatch).1.Accepts tables.handle
      Relational.pace 0 calls :=
  accepts_cons rfl (accepts_cons rfl (accepts_cons rfl (accepts_cons rfl accepts_nil)))

/-- The digest was put twice as the same raw key, and then only the later put counts. -/
theorem writtenAsDirect_replaced :
    (∀ call ∈ calls, call ≠ .batchReset 0) ∧ (putsInto 0 calls).length = 3 ∧
      (unreplaced (fun entry => entry.1.bytes) (putsInto 0 calls)).length = 2 ∧
      WrittenAsDirect BlockService.Recounted (fun d a => d.store.peek a) blocks.handle
        BlockService.pace (blocksStart.step (blocks.handle.facade BlockService.pace) .newBatch).1 0
        calls ∧
      WrittenAsDirect Eq Relational.blockAt? tables.handle Relational.pace
        (tablesStart.step (tables.handle.facade Relational.pace) .newBatch).1 0 calls := by
  refine ⟨kept, rfl, rfl, ?_, ?_⟩
  · exact (writtenAsDirect kept).1 blocks ⟨⟨{}, true⟩, .create {}, 0⟩ blocks_empties
      blocks_accepts rfl
  · exact (writtenAsDirect kept).2 tables ⟨.fresh 1, .create {}, 0⟩ tables_empties
      tables_accepts rfl

/-- The block of a put that is replaced may be missing where direct calls would have left it. -/
theorem not_always_as_all :
    ¬ ∀ (d : SqlDatabase) (site : Site Relational) (batch : Nat) (start : Call)
        (earlier calls : List Call), (∀ call ∈ calls, call ≠ .batchReset batch) →
      let F := d.handle.facade Relational.pace
      let s := run F ⟨site, []⟩ earlier
      s.Empties d.handle Relational.pace batch start →
      (s.step F start).1.Accepts d.handle Relational.pace batch calls →
      (((s.step F start).1.run F calls).step F (.batchWrite batch)).2 = .did (.ok ()) →
      ∀ a,
        (((s.step F start).1.run F calls).step F (.batchWrite batch)).1.site.backend.blockAt? a =
          (((s.step F start).1.run F calls).run F
            (direct (putsInto batch calls) (deletesInto batch calls))).site.backend.blockAt? a := by
  intro h
  have hblock := h tables ⟨.fresh 1, .create {}, 0⟩ 0 .newBatch _ calls kept tables_empties
    tables_accepts rfl literalAddress
  revert hblock
  decide +kernel

end Session.Replaced

end KeyedBlocks
