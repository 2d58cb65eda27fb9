import KeyedBlocks.Proofs.Cache.OneGet
import KeyedBlocks.Proofs.Cache.Renamed
import KeyedBlocks.Proofs.Sessions.Filed

/-!
A site over a backend without faults, used through a handle whose scheme tells sources apart, is a
flat database filed under addresses. One call keeps the two in step, and so does a whole history, as
long as the scheme can file every key and every fetch ends in time.
-/
namespace KeyedBlocks

section Rename

variable {κ μ : Type} [DecidableEq κ] [DecidableEq μ] {f : κ → μ} (hf : Function.Injective f)
include hf

theorem writeAll_rename (rows puts : List (κ × Bytes)) :
    writeAll (Assoc.rename f rows) (puts.map (Prod.map f id)) =
      Assoc.rename f (writeAll rows puts) := by
  induction puts generalizing rows with
  | nil => rfl
  | cons block puts ih =>
    have hrest := ih (Assoc.insert block.1 block.2 rows)
    rw [← Assoc.insert_rename hf] at hrest
    exact hrest

theorem eraseAll_rename (rows : List (κ × Bytes)) (deletes : List κ) :
    eraseAll (Assoc.rename f rows) (deletes.map f) = Assoc.rename f (eraseAll rows deletes) := by
  induction deletes generalizing rows with
  | nil => rfl
  | cons key deletes ih =>
    have hrest := ih (Assoc.erase key rows)
    rw [← Assoc.erase_rename hf] at hrest
    exact hrest

theorem ReadCache.invalidateAll_rename (c : ReadCache κ) (deletes : List κ) :
    (c.rename f).invalidateAll (deletes.map f) = (c.invalidateAll deletes).rename f := by
  induction deletes generalizing c with
  | nil => rfl
  | cons key deletes ih =>
    have hrest := ih (c.invalidate key)
    rw [← ReadCache.invalidate_rename hf] at hrest
    exact hrest

end Rename

theorem ReadCache.Idle.invalidateAll {κ : Type} [DecidableEq κ] {c : ReadCache κ} (h : c.Idle)
    (deletes : List κ) :
    (c.invalidateAll deletes).Idle ∧ (c.invalidateAll deletes).config = c.config := by
  induction deletes generalizing c with
  | nil => exact ⟨h, rfl⟩
  | cons key deletes ih =>
    have hnext : (c.invalidate key).Idle := by
      show Assoc.erase key c.inflight = []
      rw [h]
      rfl
    exact ih hnext

variable {β ω : Type} [Backend β ω] {pace : β → Nat → β}
  {holds : β → Nat → List (Address × Bytes) → Prop} {scheme : Scheme} {limit : Nat}

/-- A site without faults and the flat database that it is, with no fetch on its way and with
fetches that end within the time allowed, `limit`. -/
structure Mirrors (holds : β → Nat → List (Address × Bytes) → Prop) (scheme : Scheme) (limit : Nat)
    (s : Site β) (t : Flat) : Prop where
  backend : holds s.backend t.fetchMs (Assoc.rename scheme.place t.blocks)
  cache : s.cache = t.cache.rename scheme.place
  now : s.now = t.now
  idle : t.cache.Idle
  allowed : t.cache.config.fetchTimeoutMs = limit
  quick : t.fetchMs ≤ limit

namespace Mirrors

variable (hfree : FaultFree β pace holds) (hplace : Function.Injective scheme.place)
include hfree hplace

theorem put {s : Site β} {t : Flat} (h : Mirrors holds scheme limit s t) (raw : Bytes)
    (source : AddressSource) (value : Bytes) :
    Matched (Mirrors holds scheme limit) (s.put raw (scheme.place source) value)
      (t.put source value, .ok ()) := by
  obtain ⟨backend, hput, hholds⟩ := hfree.put raw (scheme.place source) value h.backend
  rw [hput]
  rw [Assoc.insert_rename hplace] at hholds
  exact ⟨⟨hholds, h.cache, h.now, h.idle, h.allowed, h.quick⟩, rfl⟩

theorem delete {s : Site β} {t : Flat} (h : Mirrors holds scheme limit s t) (raw : Bytes)
    (source : AddressSource) :
    Matched (Mirrors holds scheme limit) (s.delete raw (scheme.place source))
      (t.delete source, .ok ()) := by
  obtain ⟨backend, hdelete, hholds⟩ := hfree.delete raw (scheme.place source) h.backend
  rw [hdelete, h.cache, ReadCache.invalidate_rename hplace]
  rw [Assoc.erase_rename hplace] at hholds
  have hidle := h.idle.invalidateAll [source]
  exact ⟨⟨hholds, rfl, h.now, hidle.1, h.allowed, h.quick⟩, rfl⟩

theorem has {s : Site β} {t : Flat} (h : Mirrors holds scheme limit s t) (source : AddressSource) :
    Matched (Mirrors holds scheme limit) (s.has (scheme.place source))
      (t, .ok (Assoc.contains source t.blocks)) := by
  obtain ⟨hholds, hprobe⟩ := hfree.probe (scheme.place source) h.backend
  refine ⟨⟨hholds, h.cache, h.now, h.idle, h.allowed, h.quick⟩, ?_⟩
  show (Backend.has s.backend (scheme.place source)).2 = _
  rw [hprobe, Assoc.contains, Assoc.find?_rename hplace]
  rfl

theorem answer {s : Site β} {t : Flat} (h : Mirrors holds scheme limit s t) (raw : Bytes)
    (source : AddressSource) :
    Site.answer s.backend raw (scheme.place source) = t.found raw source := by
  unfold Site.answer Flat.found
  rw [hfree.read _ h.backend, Assoc.find?_rename hplace]
  cases Assoc.find? source t.blocks <;> rfl

omit hplace in
/-- Fetches end in time, after as long as they are set to take. -/
theorem wait {s : Site β} {t : Flat} (h : Mirrors holds scheme limit s t) (raw : Bytes)
    (a : Address) :
    (s.loader raw a).wait = min t.fetchMs Duration.longestWait ∧
      (s.loader raw a).wait ≤ s.cache.config.fetchTimeoutMs := by
  have hwait : (s.loader raw a).wait = min t.fetchMs Duration.longestWait := hfree.wait h.backend
  have hlimit : s.cache.config.fetchTimeoutMs = limit := by
    rw [h.cache]
    exact h.allowed
  have hquick := h.quick
  refine ⟨hwait, ?_⟩
  rw [hwait, hlimit]
  omega

theorem get {s : Site β} {t : Flat} (h : Mirrors holds scheme limit s t) (raw : Bytes)
    (source : AddressSource) :
    Matched (Mirrors holds scheme limit) (s.get raw (scheme.place source)) (t.get raw source) := by
  have hpeek : s.cache.peek s.now (scheme.place source) = t.cache.peek t.now source := by
    rw [h.cache, h.now, ReadCache.peek_rename hplace]
  have hlooked : (s.cache.consult s.now 0 true (scheme.place source)).2 =
      (t.cache.consult t.now 0 true source).2.rename scheme.place := by
    rw [h.cache, h.now, ReadCache.consult_rename hplace]
  unfold Flat.get
  cases hfound : t.cache.peek t.now source with
  | some value =>
    rw [hfound] at hpeek
    rw [Site.get_hit raw hpeek]
    refine ⟨⟨hfree.counted 0 h.backend, hlooked, h.now, h.idle.hit hfound, ?_, h.quick⟩, rfl⟩
    rw [ReadCache.consult_config]
    exact h.allowed
  | none =>
    rw [hfound] at hpeek
    have hleader : s.cache.leader? (scheme.place source) = none := by
      rw [h.cache, ReadCache.leader?_rename hplace]
      exact h.idle.leader? source
    obtain ⟨hwait, htime⟩ := h.wait hfree raw (scheme.place source)
    have hspan : s.now + Timeline.Loader.span (s.loader raw (scheme.place source)) s.cache.config =
        t.later := by
      rw [Timeline.Loader.span, Nat.min_eq_left htime, hwait, h.now]
      rfl
    have houtcome : Timeline.Loader.outcome (s.loader raw (scheme.place source)) s.cache.config
        (scheme.place source) = t.found raw source := by
      rw [Timeline.Loader.outcome, if_pos htime]
      exact h.answer hfree hplace raw source
    rw [Site.get_miss raw hpeek hleader, hspan, houtcome, hlooked, ReadCache.settle_rename hplace]
    refine ⟨⟨hfree.counted 1 h.backend, rfl, rfl, h.idle.miss _ _ hfound, ?_, h.quick⟩, rfl⟩
    rw [ReadCache.settle_config, ReadCache.consult_config]
    exact h.allowed

theorem write {s : Site β} {t : Flat} (h : Mirrors holds scheme limit s t) (b : FlatBatch) :
    Matched (Mirrors holds scheme limit) (s.flush (b.file scheme)) (t.write b, .ok ()) := by
  obtain ⟨backend, hflush, hholds⟩ := hfree.flush (b.file scheme) h.backend
  rw [FlatBatch.deleteList_file] at hflush hholds
  rw [FlatBatch.putList_file, writeAll_rename hplace, eraseAll_rename hplace] at hholds
  rw [hflush, h.cache, ReadCache.invalidateAll_rename hplace]
  obtain ⟨hidle, hconfig⟩ := h.idle.invalidateAll b.deleted
  refine ⟨⟨hholds, rfl, h.now, hidle, ?_, h.quick⟩, rfl⟩
  show (t.cache.invalidateAll b.deleted).config.fetchTimeoutMs = limit
  rw [hconfig]
  exact h.allowed

omit hfree hplace in
/-- The entry points of a handle act on the address of a key as the flat database acts on what the
key resolves to. -/
theorem through {α : Type} {handle : Handle} {s : Site β} {t : Flat}
    (h : Mirrors holds handle.scheme limit s t) {k : KeyForm} (hfits : k.Fits handle.scheme)
    (act : Bytes → Address → Site β × Except StoreError α)
    {other : Bytes → AddressSource → Flat × Except StoreError α}
    (hact : ∀ raw source, Matched (Mirrors holds handle.scheme limit)
      (act raw (handle.scheme.place source)) (other raw source)) :
    Matched (Mirrors holds handle.scheme limit)
      (k.through (fun key => handle.located s key (act key.raw))
        fun bytes => Handle.classified s bytes fun key => handle.located s key (act key.raw))
      (k.use t other) := by
  rw [handle.located_form s act hfits]
  exact k.use_matched h hact

omit hfree hplace in
theorem clear {s : Site β} {t : Flat} (h : Mirrors holds scheme limit s t) :
    Mirrors holds scheme limit { s with cache := s.cache.clear }
      { t with cache := t.cache.clear } where
  backend := h.backend
  cache := by rw [h.cache, ReadCache.clear_rename]
  now := h.now
  idle := rfl
  allowed := h.allowed
  quick := h.quick

omit hfree hplace in
theorem advance {s : Site β} {t : Flat} (h : Mirrors holds scheme limit s t) (ms : Nat) :
    Mirrors holds scheme limit { s with now := s.now + ms } { t with now := t.now + ms } where
  backend := h.backend
  cache := h.cache
  now := by rw [h.now]
  idle := h.idle
  allowed := h.allowed
  quick := h.quick

omit hplace in
theorem paced {s : Site β} {t : Flat} (h : Mirrors holds scheme limit s t) {ms : Nat}
    (hquick : ms ≤ limit) :
    Mirrors holds scheme limit { s with backend := pace s.backend ms }
      { t with fetchMs := ms } where
  backend := hfree.paced ms h.backend
  cache := h.cache
  now := h.now
  idle := h.idle
  allowed := h.allowed
  quick := hquick

end Mirrors

/-- A session at a handle and the session with the flat database and the flat batches. -/
structure Session.Mirrors (holds : β → Nat → List (Address × Bytes) → Prop) (scheme : Scheme)
    (limit : Nat) (s : Session (Site β) Buffer) (t : Session Flat FlatBatch) : Prop where
  site : KeyedBlocks.Mirrors holds scheme limit s.site t.site
  batches : s.batches = t.batches.map (FlatBatch.file scheme)

namespace Session

/-- What the two sides can do alike: the scheme can file the key, and fetches are not set to take
longer than is allowed. -/
structure Call.Allowed (scheme : Scheme) (limit : Nat) (call : Call) : Prop where
  fits : ∀ k, call.key? = some k → k.Fits scheme
  quick : ∀ ms, call = .pace ms → ms ≤ limit

theorem Mirrors.batch? {s : Session (Site β) Buffer} {t : Session Flat FlatBatch}
    (h : s.Mirrors holds scheme limit t) (batch : Nat) :
    s.batches[batch]? = t.batches[batch]?.map (FlatBatch.file scheme) := by
  rw [h.batches, List.getElem?_map]

/-- A change of an open batch on both sides. -/
theorem Mirrors.onBatch {s : Session (Site β) Buffer} {t : Session Flat FlatBatch}
    (h : s.Mirrors holds scheme limit t) (batch : Nat)
    {change : Buffer → Buffer × Except StoreError Unit}
    {other : FlatBatch → FlatBatch × Except StoreError Unit}
    (hchange : ∀ c, Matched (FlatBatch.Filed scheme) (change (c.file scheme)) (other c)) :
    Matched (Session.Mirrors holds scheme limit) (s.onBatch batch change)
      (t.onBatch batch other) := by
  simp only [Session.onBatch, h.batch?]
  cases t.batches[batch]? with
  | none => exact ⟨h, rfl⟩
  | some c =>
    obtain ⟨hfiled, hresult⟩ := hchange c
    refine ⟨⟨h.site, ?_⟩, congrArg Reply.did hresult⟩
    simp only [h.batches, List.map_set]
    exact congrArg _ hfiled

theorem Mirrors.step (hfree : FaultFree β pace holds) {handle : Handle}
    (hplace : Function.Injective handle.scheme.place) {s : Session (Site β) Buffer}
    {t : Session Flat FlatBatch} (h : s.Mirrors holds handle.scheme limit t) {call : Call}
    (hcall : call.Allowed handle.scheme limit) :
    Matched (Session.Mirrors holds handle.scheme limit) (s.step (handle.facade pace) call)
      (t.step (Flat.facade handle.batchCapacity) call) := by
  cases call with
  | put k value =>
    have hput := h.site.through (hcall.fits k rfl) (fun raw a => s.site.put raw a value)
      fun raw source => h.site.put hfree hplace raw source value
    exact ⟨⟨hput.1, h.batches⟩, congrArg Reply.did hput.2⟩
  | get k =>
    have hget := h.site.through (hcall.fits k rfl) (fun raw a => s.site.get raw a)
      fun raw source => h.site.get hfree hplace raw source
    exact ⟨⟨hget.1, h.batches⟩, congrArg Reply.got hget.2⟩
  | has k =>
    have hhas := h.site.through (hcall.fits k rfl) (fun _ a => s.site.has a)
      fun _ source => h.site.has hfree hplace source
    exact ⟨⟨hhas.1, h.batches⟩, congrArg Reply.found hhas.2⟩
  | delete k =>
    have hdelete := h.site.through (hcall.fits k rfl) (fun raw a => s.site.delete raw a)
      fun raw source => h.site.delete hfree hplace raw source
    exact ⟨⟨hdelete.1, h.batches⟩, congrArg Reply.did hdelete.2⟩
  | clear => exact ⟨⟨h.site.clear, h.batches⟩, rfl⟩
  | advance ms => exact ⟨⟨h.site.advance ms, h.batches⟩, rfl⟩
  | pace ms => exact ⟨⟨h.site.paced hfree (hcall.quick ms rfl), h.batches⟩, rfl⟩
  | newBatch =>
    have hcreate := FlatBatch.create_file handle.scheme handle.batchCapacity
    have hnew : (handle.facade pace).newBatch = _ := hcreate
    have hflat : (Flat.facade handle.batchCapacity).newBatch =
        FlatBatch.create handle.batchCapacity := rfl
    simp only [Session.step, hnew, hflat]
    cases FlatBatch.create handle.batchCapacity with
    | error e => exact ⟨h, rfl⟩
    | ok c =>
      refine ⟨⟨h.site, ?_⟩, rfl⟩
      show s.batches ++ [c.file handle.scheme] =
        (t.batches ++ [c]).map (FlatBatch.file handle.scheme)
      rw [h.batches, List.map_append]
      rfl
  | batchPut batch k value =>
    refine h.onBatch batch fun c => ?_
    have hform : (handle.facade pace).batchPut (c.file handle.scheme) k value = _ :=
      Buffer.put_form (b := c.file handle.scheme) (hcall.fits k rfl) value
    have hput : Matched (FlatBatch.Filed handle.scheme)
        ((handle.facade pace).batchPut (c.file handle.scheme) k value)
        ((Flat.facade handle.batchCapacity).batchPut c k value) := by
      rw [hform]
      exact k.use_matched rfl fun raw source => c.put_filed raw source value
    exact hput
  | batchDelete batch k =>
    refine h.onBatch batch fun c => ?_
    have hform : (handle.facade pace).batchDelete (c.file handle.scheme) k = _ :=
      Buffer.delete_form (b := c.file handle.scheme) (hcall.fits k rfl)
    have hdelete : Matched (FlatBatch.Filed handle.scheme)
        ((handle.facade pace).batchDelete (c.file handle.scheme) k)
        ((Flat.facade handle.batchCapacity).batchDelete c k) := by
      rw [hform]
      exact k.use_matched rfl fun raw source => c.delete_filed raw source
    exact hdelete
  | batchSize batch =>
    simp only [Session.step, h.batch?]
    cases t.batches[batch]? with
    | none => exact ⟨h, rfl⟩
    | some c => exact ⟨h, rfl⟩
  | batchWrite batch =>
    simp only [Session.step, h.batch?]
    cases t.batches[batch]? with
    | none => exact ⟨h, rfl⟩
    | some c =>
      obtain ⟨hsite, hresult⟩ := h.site.write hfree hplace c
      exact ⟨⟨hsite, h.batches⟩, congrArg Reply.did hresult⟩
  | batchReset batch => exact h.onBatch batch fun c => ⟨rfl, rfl⟩

/-- A history that both sides can take leaves the same transcript. -/
theorem Mirrors.transcript_eq (hfree : FaultFree β pace holds) {handle : Handle}
    (hplace : Function.Injective handle.scheme.place) {s : Session (Site β) Buffer}
    {t : Session Flat FlatBatch} (h : s.Mirrors holds handle.scheme limit t) {calls : List Call}
    (hcalls : ∀ call ∈ calls, call.Allowed handle.scheme limit) :
    s.transcript (handle.facade pace) calls =
      t.transcript (Flat.facade handle.batchCapacity) calls := by
  induction calls generalizing s t with
  | nil => rfl
  | cons call rest ih =>
    obtain ⟨hnext, hreply⟩ := h.step hfree hplace (hcalls call (List.mem_cons_self ..))
    have hrest := ih hnext fun later hlater => hcalls later (List.mem_cons_of_mem _ hlater)
    have hcounters : (s.step (handle.facade pace) call).1.site.cache.stats =
        (t.step (Flat.facade handle.batchCapacity) call).1.site.cache.stats := by
      rw [hnext.site.cache]
      rfl
    simp only [transcript]
    rw [hreply, hrest]
    exact congrArg (fun counters => (_, counters) :: _) hcounters

end Session

end KeyedBlocks
