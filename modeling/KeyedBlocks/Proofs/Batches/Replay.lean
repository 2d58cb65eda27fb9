import KeyedBlocks.Proofs.Batches.History
import KeyedBlocks.Proofs.Batches.Piecemeal
import KeyedBlocks.Proofs.Sessions.Indistinguishable
import KeyedBlocks.Proofs.Sessions.Transparent

/-!
The replay of a batch. It hands the pending writes by raw key to a database, which files each under
the address that its raw key derives to, whatever the address was under which the write was
buffered. Each write is made once, in the order of the batch, up to the first whose key does not
derive. If all raw keys derive to the addresses that were buffered, as those of untyped writes do,
the replay comes to what the write of the batch comes to.
-/
namespace KeyedBlocks

namespace Deed

def write : Deed → Write
  | .put raw _ value => .put raw value
  | .delete raw _ => .delete raw

def under (a : Address) : Deed → Deed
  | .put raw _ value => .put raw a value
  | .delete raw _ => .delete raw a

/-- A deed under the address that its raw key derives to. -/
def refile (scheme : Scheme) (deed : Deed) : Except KeyError Deed :=
  (scheme.deriveRaw deed.key).map deed.under

def Refiles (scheme : Scheme) : List Deed → List Deed → Prop :=
  List.Forall₂ fun deed filed => deed.refile scheme = .ok filed

theorem refile_of_filed {scheme : Scheme} {deed : Deed} (h : deed.FiledBy scheme) :
    deed.refile scheme = .ok deed := by
  cases deed with
  | put raw a value | delete raw a =>
    have hderive : scheme.deriveRaw raw = .ok a := h
    simp only [refile, key, hderive]
    rfl

theorem refiles_self {scheme : Scheme} {deeds : List Deed}
    (h : ∀ deed ∈ deeds, deed.FiledBy scheme) : Refiles scheme deeds deeds := by
  unfold Refiles
  induction deeds with
  | nil => exact .nil
  | cons deed rest ih =>
    obtain ⟨hfirst, hrest⟩ := List.forall_mem_cons.1 h
    exact .cons (refile_of_filed hfirst) (ih hrest)

end Deed

theorem Buffer.writes_eq (b : Buffer) : b.writes = b.deeds.map Deed.write := by
  simp only [writes, deeds, List.map_append, List.map_map]
  rfl

namespace Handle

variable {β ω : Type} [Backend β ω] {h : Handle} {s t : Site β} {b : Buffer}
  {deed : Deed} {deeds filed : List Deed}

/-- A write by raw key is made under the address that the key derives to, if it derives to one. -/
theorem write_eq (h : Handle) (s : Site β) (deed : Deed) :
    h.write s deed.write =
      match deed.refile h.scheme with
      | .ok done => s.make done.request
      | .error e => (s, .error (.ofKeyError e)) := by
  cases deed with
  | put raw a value =>
    have hput : h.write s (.put raw value) =
        onFiled s ((KeyForm.raw raw).file h.scheme) fun key b => s.put key b value :=
      h.through_file s (.raw raw) fun key b => s.put key b value
    rw [Deed.write, hput, KeyForm.file_raw, Deed.refile, Deed.key]
    cases h.scheme.deriveRaw raw <;> rfl
  | delete raw a =>
    have hdelete : h.write s (.delete raw) =
        onFiled s ((KeyForm.raw raw).file h.scheme) s.delete :=
      h.through_file s (.raw raw) s.delete
    rw [Deed.write, hdelete, KeyForm.file_raw, Deed.refile, Deed.key]
    cases h.scheme.deriveRaw raw <;> rfl

/-- As long as all keys derive, writes by raw key are the refiled deeds one after the other. -/
theorem runs_writes (hfiled : Deed.Refiles h.scheme deeds filed) (s : Site β) :
    runSteps h.write s (deeds.map Deed.write) = s.makeEach filed := by
  induction hfiled generalizing s with
  | nil => rfl
  | @cons deed done deeds filed hfile _ ih =>
    have hwrite : h.write s deed.write = s.make done.request := by
      rw [h.write_eq, hfile]
    rcases hmake : s.make done.request with ⟨t, e | _⟩
    · rw [hmake] at hwrite
      rw [List.map_cons, runSteps_cons_error hwrite]
      unfold Site.makeEach
      rw [runSteps, hmake]
    · rw [hmake] at hwrite
      rw [List.map_cons, runSteps_cons_ok hwrite, Site.makeEach_cons hmake, ih]

theorem replay_refiled (hfiled : Deed.Refiles h.scheme b.deeds filed) (s : Site β) :
    h.replay s b = s.makeEach filed := by
  unfold replay Buffer.replay
  rw [b.writes_eq]
  exact runs_writes hfiled s

/-- A replay ends at a write whose key does not derive. -/
theorem replay_underived {before after : List Deed} {e : KeyError}
    (hsplit : b.deeds = before ++ deed :: after) (hbefore : Deed.Refiles h.scheme before filed)
    (hfails : deed.refile h.scheme = .error e) (hmade : s.makeEach filed = (t, .ok ())) :
    h.replay s b = (t, .error (.ofKeyError e)) := by
  have hfront : runSteps h.write s (before.map Deed.write) = (t, .ok ()) :=
    (runs_writes hbefore s).trans hmade
  have hlast : h.write t deed.write = (t, .error (.ofKeyError e)) := by
    rw [h.write_eq, hfails]
  unfold replay Buffer.replay
  rw [b.writes_eq, hsplit, List.map_append, List.map_cons, runSteps_append_ok hfront,
    runSteps_cons_error hlast]

end Handle

/-- Where there are no faults, deeds can be made one after the other. -/
theorem FaultFree.makeEach {β ω : Type} [Backend β ω] {pace : β → Nat → β}
    {holds : β → Nat → List (Address × Bytes) → Prop} (hfree : FaultFree β pace holds)
    {s : Site β} {ms : Nat} {rows : List (Address × Bytes)} (h : holds s.backend ms rows)
    (deeds : List Deed) :
    ∃ t, s.makeEach deeds = (t, .ok ()) ∧ holds t.backend ms (deeds.foldl Deed.onRows rows) := by
  induction deeds generalizing s rows with
  | nil => exact ⟨s, rfl, h⟩
  | cons deed rest ih =>
    obtain ⟨backend, hmake, hnext⟩ := hfree.make h deed.request
    rw [deed.deeds_request] at hnext
    obtain ⟨t, hrest, hleft⟩ := ih (s := ⟨backend, _, _⟩) hnext
    exact ⟨t, (Site.makeEach_cons hmake rest).trans hrest, hleft⟩

/-- What comes of a batch that is replayed through a handle at a site. Sites are compared by
`same`. -/
structure Replayed {β ω : Type} [Backend β ω] (same : Site β → Site β → Prop) (h : Handle)
    (s : Site β) (b : Buffer) : Prop where
  /-- The pending writes are made one after the other, each under the address that its raw key
  derives to. -/
  each : ∀ filed, Deed.Refiles h.scheme b.deeds filed →
    ∃ t, s.makeEach filed = (t, .ok ()) ∧ h.replay s b = (t, .ok ())
  /-- If there is one whose key does not derive, the replay fails there. -/
  stops : ∀ before deed after filed e, b.deeds = before ++ deed :: after →
    Deed.Refiles h.scheme before filed → deed.refile h.scheme = .error e →
    ∃ t, s.makeEach filed = (t, .ok ()) ∧ h.replay s b = (t, .error (.ofKeyError e))
  /-- If each key derives to the address under which it was buffered, the replay is the same as the
  write of the batch. -/
  written : (∀ deed ∈ b.deeds, deed.FiledBy h.scheme) →
    ∃ t t', s.flush b = (t, .ok ()) ∧ h.replay s b = (t', .ok ()) ∧ same t t'

theorem FaultFree.replayed {β ω : Type} [Backend β ω] {pace : β → Nat → β}
    {holds : β → Nat → List (Address × Bytes) → Prop} (hfree : FaultFree β pace holds)
    {same : Site β → Site β → Prop}
    (hsame : ∀ (s t : Site β) b, s.flush b = (t, .ok ()) →
      ∃ t', s.makeEach b.deeds = (t', .ok ()) ∧ same t t')
    {s : Site β} {ms : Nat} {rows : List (Address × Bytes)} (hserves : holds s.backend ms rows)
    (h : Handle) (b : Buffer) : Replayed same h s b := by
  refine ⟨?each, ?stops, ?written⟩
  case each =>
    intro filed hfiled
    obtain ⟨t, hmade, _⟩ := hfree.makeEach hserves filed
    exact ⟨t, hmade, (h.replay_refiled hfiled s).trans hmade⟩
  case stops =>
    intro before deed after filed e hsplit hbefore hfails
    obtain ⟨t, hmade, _⟩ := hfree.makeEach hserves filed
    exact ⟨t, hmade, Handle.replay_underived hsplit hbefore hfails hmade⟩
  case written =>
    intro hfiled
    obtain ⟨backend, hflush, _⟩ := hfree.flush b hserves
    obtain ⟨t', hmade, hsites⟩ := hsame s _ b hflush
    refine ⟨_, t', hflush, ?_, hsites⟩
    rw [h.replay_refiled (Deed.refiles_self hfiled)]
    exact hmade

theorem Buffer.Holds.mem_log {b : Buffer} {h : Handle} {log : List Deed} (hholds : b.Holds h log)
    {deed : Deed} (hmem : deed ∈ b.deeds) : deed ∈ log := by
  rcases List.mem_append.1 hmem with hput | hdelete
  · obtain ⟨⟨raw, a, value⟩, hentry, rfl⟩ := List.mem_map.1 hput
    exact hholds.mem_log_of_put hentry
  · obtain ⟨⟨raw, a⟩, hentry, rfl⟩ := List.mem_map.1 hdelete
    exact hholds.mem_log_of_delete hentry

namespace Session

/-- What untyped calls buffer is buffered under the addresses that the keys derive to. -/
theorem batches_filed {β ω : Type} [Backend β ω] (h : Handle) (pace : β → Nat → β) (site : Site β)
    {calls : List Call} (huntyped : ∀ call ∈ calls, call.Untyped) :
    ∀ b ∈ (run (h.facade pace) ⟨site, []⟩ calls).batches,
      ∃ log, b.Holds h log ∧ ∀ deed ∈ log, deed.FiledBy h.scheme := by
  induction calls using List.reverseRecOn with
  | nil => exact fun b hmem => absurd hmem List.not_mem_nil
  | append_singleton calls call ih =>
    have hbefore := ih fun other hmem => huntyped other (List.mem_append_left _ hmem)
    have hcall := huntyped call (by simp)
    have hadd : ∀ (b : Buffer) (k : KeyForm) (deed : Bytes → Address → Deed),
        (∃ bytes, k = .raw bytes) →
        (∀ raw a, h.scheme.deriveRaw raw = .ok a → (deed raw a).FiledBy h.scheme) →
        (∃ log, b.Holds h log ∧ ∀ deed ∈ log, deed.FiledBy h.scheme) →
        ∃ log, (onFiled b (k.file b.scheme) fun raw a => b.add (deed raw a)).1.Holds h log ∧
          ∀ deed ∈ log, deed.FiledBy h.scheme := by
      rintro b k deed hraw hfiled ⟨log, hholds, hlog⟩
      cases hfile : k.file b.scheme with
      | error e => exact ⟨log, hholds, hlog⟩
      | ok found =>
        rw [hholds.scheme] at hfile
        have hderive := KeyForm.deriveRaw_of_file hraw (congrArg Except.toOption hfile)
        refine ⟨_, hholds.add (deed found.1 found.2), fun other hmem => ?_⟩
        rcases List.mem_append.1 hmem with hold | hnew
        · exact hlog other hold
        · obtain rfl := List.mem_singleton.1 hnew
          exact hfiled found.1 found.2 hderive
    rw [run_concat]
    refine forall_batches_step hbefore ?_ ?_ ?_ ?_
    · intro b hnew
      exact ⟨[], Buffer.holds_create hnew, fun deed hmem => absurd hmem List.not_mem_nil⟩
    · rintro b ⟨log, hholds, _⟩
      exact ⟨[], hholds.reset, fun deed hmem => absurd hmem List.not_mem_nil⟩
    · rintro batch k value rfl b hb
      exact hadd b k (fun raw a => .put raw a value) hcall (fun raw a hderive => hderive) hb
    · rintro batch k rfl b hb
      exact hadd b k .delete hcall (fun raw a hderive => hderive) hb

end Session

/-- The replay of any batch of a session into a database of the same kind and configuration that
has no faults. -/
theorem replayed_batches (calls : List Session.Call) :
    (∀ (d : BlockDatabase) (start : Site BlockService),
      ∀ b ∈ (Session.run (d.handle.facade BlockService.pace) ⟨start, []⟩ calls).batches,
        (∀ (s : Site BlockService) ms rows, s.backend.Serves ms rows →
          Replayed BlockService.Recounted d.handle s b) ∧
        ((∀ call ∈ calls, call.Untyped) → ∀ deed ∈ b.deeds, deed.FiledBy d.handle.scheme)) ∧
    ∀ (d : SqlDatabase) (start : Site Relational),
      ∀ b ∈ (Session.run (d.handle.facade Relational.pace) ⟨start, []⟩ calls).batches,
        (∀ (s : Site Relational) ms rows, s.backend.Serves ms rows → Replayed Eq d.handle s b) ∧
        ((∀ call ∈ calls, call.Untyped) → ∀ deed ∈ b.deeds, deed.FiledBy d.handle.scheme) := by
  constructor
  · intro d start b hbatch
    constructor
    · intro s ms rows hserves
      refine BlockService.faultFree.replayed (fun s t b hflush => ?_) hserves d.handle b
      obtain ⟨counted, hmade⟩ := BlockService.makeEach_of_flush hflush
      exact ⟨_, hmade, counted, rfl⟩
    · intro huntyped deed hmem
      obtain ⟨log, hholds, hfiled⟩ :=
        Session.batches_filed d.handle BlockService.pace start huntyped b hbatch
      exact hfiled deed (hholds.mem_log hmem)
  · intro d start b hbatch
    constructor
    · intro s ms rows hserves
      refine Relational.faultFree.replayed (fun s t b hflush => ?_) hserves d.handle b
      exact ⟨t, Relational.makeEach_of_flush hflush, rfl⟩
    · intro huntyped deed hmem
      obtain ⟨log, hholds, hfiled⟩ :=
        Session.batches_filed d.handle Relational.pace start huntyped b hbatch
      exact hfiled deed (hholds.mem_log hmem)

namespace Replays

def blocks : BlockDatabase := ⟨{}⟩

def tables : SqlDatabase := ⟨{}⟩

def digest : Bytes := List.replicate 32 7

/-- Two aliases are put and one of them is deleted. -/
def calls : List Session.Call :=
  [.newBatch, .batchPut 0 (.raw digest) [1],
    .batchPut 0 (.raw (preimageTag ++ partMark ++ digest)) [2], .batchDelete 0 (.raw digest)]

theorem untyped : ∀ call ∈ calls, call.Untyped := by
  intro call hmem
  simp only [calls, List.mem_cons, List.not_mem_nil, or_false] at hmem
  rcases hmem with rfl | rfl | rfl | rfl
  · trivial
  all_goals exact ⟨_, rfl⟩

theorem replayed_aliases :
    (∀ call ∈ calls, call.Untyped) ∧
      (∃ b ∈ (Session.run (blocks.handle.facade BlockService.pace) (blocks.session true 0)
          calls).batches, b.deeds.length = 3 ∧
        (∀ deed ∈ b.deeds, deed.FiledBy blocks.handle.scheme) ∧
        Replayed BlockService.Recounted blocks.handle (blocks.session true 0).site b) ∧
      ∃ b ∈ (Session.run (tables.handle.facade Relational.pace) (tables.session 0) calls).batches,
        b.deeds.length = 3 ∧ (∀ deed ∈ b.deeds, deed.FiledBy tables.handle.scheme) ∧
        Replayed Eq tables.handle (tables.session 0).site b := by
  refine ⟨untyped, ⟨_, List.mem_cons_self .., rfl, ?_, ?_⟩, _, List.mem_cons_self .., rfl, ?_, ?_⟩
  · exact ((replayed_batches calls).1 blocks (blocks.session true 0).site _
      (List.mem_cons_self ..)).2 untyped
  · exact ((replayed_batches calls).1 blocks (blocks.session true 0).site _
      (List.mem_cons_self ..)).1 _ 0 [] ⟨rfl, rfl, rfl⟩
  · exact ((replayed_batches calls).2 tables (tables.session 0).site _
      (List.mem_cons_self ..)).2 untyped
  · exact ((replayed_batches calls).2 tables (tables.session 0).site _
      (List.mem_cons_self ..)).1 _ 0 [] ⟨rfl, rfl, rfl, rfl, rfl, [], rfl⟩

/-- A digest is put as an opaque key. -/
def retyped : List Session.Call :=
  [.newBatch, .batchPut 0 (.typed (.ofLiteral digest)) [1]]

/-- A replay need not come to what the write comes to. -/
theorem not_always_as_written :
    ¬ ∀ (d : SqlDatabase) (start : Site Relational) (calls : List Session.Call),
      ∀ b ∈ (Session.run (d.handle.facade Relational.pace) ⟨start, []⟩ calls).batches,
        ∀ (s : Site Relational) ms rows, s.backend.Serves ms rows →
          ∃ t t', s.flush b = (t, .ok ()) ∧ d.handle.replay s b = (t', .ok ()) ∧
            t.backend.tables.blocks = t'.backend.tables.blocks ∧ t.cache = t'.cache := by
  intro h
  obtain ⟨t, t', hflush, hreplay, hblocks, _⟩ := h tables (tables.session 0).site retyped _
    (List.mem_cons_self ..) (tables.session 0).site 0 [] ⟨rfl, rfl, rfl, rfl, rfl, [], rfl⟩
  obtain rfl := congrArg Prod.fst hflush
  obtain rfl := congrArg Prod.fst hreplay
  revert hblocks
  decide +kernel

end Replays

end KeyedBlocks
