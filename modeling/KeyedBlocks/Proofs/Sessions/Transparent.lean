import KeyedBlocks.Blocks.Database
import KeyedBlocks.Proofs.Cache.Forgetting
import KeyedBlocks.Proofs.Sessions.Deeds
import KeyedBlocks.Proofs.Sessions.Refinement
import KeyedBlocks.Relational.Database

/-!
When callers do not notice the read cache. If all that is put to an address between two deletes of
it is the same, then all that the cache holds is what is stored: a put changes nothing of it, and
what a delete changes the cache forgets. A get then returns what a read past the cache would.
-/
namespace KeyedBlocks

/-- Whatever is put to an address, the values put there since the last delete are the same. -/
def ContentAddressed (log : List Deed) : Prop :=
  ∀ before raw a value after, log = before ++ .put raw a value :: after →
    ∀ old, Since (Deed.Stores a old) (Deed.Removes a) before → value = old

theorem ContentAddressed.before {log more : List Deed} (h : ContentAddressed (log ++ more)) :
    ContentAddressed log := by
  rintro before raw a value after rfl
  exact h before raw a value (after ++ more) (by simp)

theorem contentAddressed_nil : ContentAddressed [] := by
  intro before raw a value after hsplit
  simp at hsplit

theorem contentAddressed_concat {log : List Deed} {deed : Deed} :
    ContentAddressed (log ++ [deed]) ↔ ContentAddressed log ∧
      ∀ raw a value, deed = .put raw a value →
        ∀ old, Since (Deed.Stores a old) (Deed.Removes a) log → value = old := by
  constructor
  · intro h
    refine ⟨h.before, ?_⟩
    rintro raw a value rfl
    exact h log raw a value [] rfl
  · rintro ⟨hlog, hdeed⟩ before raw a value after hsplit
    rcases split_concat_cases hsplit with ⟨rfl, rfl, _⟩ | ⟨rest, _, hearlier⟩
    · exact hdeed raw a value rfl
    · exact hlog before raw a value rest hearlier

/-- What is stored stays so through further deeds, except deletes. -/
theorem Stored.append {log deeds : List Deed} {a : Address} {value : Bytes}
    (h : Stored log a value) (hcontent : ContentAddressed (log ++ deeds))
    (hkept : ∀ deed ∈ deeds, ¬ deed.Removes a) : Stored (log ++ deeds) a value := by
  induction deeds generalizing log with
  | nil => simpa using h
  | cons deed rest ih =>
    have hshift : log ++ deed :: rest = (log ++ [deed]) ++ rest := by simp
    have hnext : Stored (log ++ [deed]) a value := by
      cases deed with
      | put raw b new =>
        by_cases hb : a = b
        · subst hb
          obtain ⟨before, x, after, hlog, hmark, hafter⟩ := h
          have hsince : Since (Deed.Stores a value) (Deed.Removes a) log :=
            ⟨before, x, after, hlog, hmark, fun later hmem hremoves =>
              hafter later hmem (Or.inr hremoves)⟩
          have hsame := hcontent log raw a new rest rfl value hsince
          exact stored_concat_put.2 (Or.inl ⟨rfl, hsame.symm⟩)
        · exact stored_concat_put.2 (Or.inr ⟨hb, h⟩)
      | delete raw b =>
        have hne : a ≠ b := by
          rintro rfl
          exact hkept _ (List.mem_cons_self ..) ⟨raw, rfl⟩
        exact stored_concat_delete.2 ⟨hne, h⟩
    rw [hshift] at hcontent ⊢
    exact ih hnext hcontent fun later hmem => hkept later (List.mem_cons_of_mem _ hmem)

def Deed.onRows (rows : List (Address × Bytes)) : Deed → List (Address × Bytes)
  | .put _ a value => Assoc.insert a value rows
  | .delete _ a => Assoc.erase a rows

def Keeps (rows : List (Address × Bytes)) (log : List Deed) : Prop :=
  ∀ a value, Assoc.find? a rows = some value ↔ Stored log a value

theorem keeps_nil : Keeps [] [] := by
  intro a value
  simp [Stored, not_since_nil]

theorem Keeps.deed {rows : List (Address × Bytes)} {log : List Deed} (h : Keeps rows log)
    (deed : Deed) : Keeps (deed.onRows rows) (log ++ [deed]) := by
  intro b new
  cases deed with
  | put raw a value =>
    rw [stored_concat_put, ← h]
    by_cases hb : b = a
    · subst hb
      simp [Deed.onRows, eq_comm]
    · simp [Deed.onRows, Assoc.find?_insert_of_ne hb, hb]
  | delete raw a =>
    rw [stored_concat_delete, ← h]
    by_cases hb : b = a
    · subst hb
      simp [Deed.onRows]
    · simp [Deed.onRows, Assoc.find?_erase_of_ne hb, hb]

theorem Keeps.deeds {rows : List (Address × Bytes)} {log : List Deed} (h : Keeps rows log)
    (deeds : List Deed) : Keeps (deeds.foldl Deed.onRows rows) (log ++ deeds) := by
  induction deeds generalizing rows log with
  | nil => simpa using h
  | cons deed rest ih =>
    have hshift : log ++ deed :: rest = (log ++ [deed]) ++ rest := by simp
    rw [hshift]
    exact ih (h.deed deed)

variable {β ω : Type} [Backend β ω] {pace : β → Nat → β}
  {holds : β → Nat → List (Address × Bytes) → Prop}

/-- A request at a backend without faults carries out its deeds, and the cache forgets the
addresses that were deleted. -/
theorem FaultFree.make (hfree : FaultFree β pace holds) {s : Site β} {ms : Nat}
    {rows : List (Address × Bytes)} (h : holds s.backend ms rows) (request : Request) :
    ∃ backend, s.make request =
        (⟨backend, s.cache.invalidateAll request.forgotten, s.now⟩, .ok ()) ∧
      holds backend ms (request.deeds.foldl Deed.onRows rows) := by
  cases request with
  | put raw a value => exact hfree.put raw a value h
  | delete raw a => exact hfree.delete raw a h
  | flush b =>
    obtain ⟨backend, hflush, hholds⟩ := hfree.flush b h
    refine ⟨backend, hflush, ?_⟩
    simp only [writeAll, eraseAll, List.foldl_map] at hholds
    simp only [Request.deeds, Buffer.deeds, List.foldl_append, List.foldl_map]
    exact hholds

/-- The backend of a site has what is stored according to a log, and fetches end in time, within
`limit`; the cache holds nothing but what is stored. -/
structure Honest (holds : β → Nat → List (Address × Bytes) → Prop) (limit : Nat) (s : Site β)
    (log : List Deed) : Prop where
  backend : ∃ ms rows, holds s.backend ms rows ∧ ms ≤ limit ∧ Keeps rows log
  idle : s.cache.Idle
  allowed : s.cache.config.fetchTimeoutMs = limit
  held : ∀ a value, s.cache.held.Holds a value → Stored log a value

namespace Honest

variable (hfree : FaultFree β pace holds) {limit : Nat} {s : Site β} {log : List Deed}
  (h : Honest holds limit s log)
include hfree h

theorem answer_ok_iff (raw : Bytes) (a : Address) (value : Bytes) :
    Site.answer s.backend raw a = .ok value ↔ Stored log a value := by
  obtain ⟨ms, rows, hholds, _, hkeeps⟩ := h.backend
  rw [← hkeeps]
  unfold Site.answer
  rw [hfree.read a hholds]
  cases Assoc.find? a rows <;> simp

theorem answer_eq_notFound {a : Address} (hnone : ∀ value, ¬ Stored log a value) (raw : Bytes) :
    Site.answer s.backend raw a = .error (.notFound (Hex.encode raw)) := by
  obtain ⟨ms, rows, hholds, _, hkeeps⟩ := h.backend
  unfold Site.answer
  rw [hfree.read a hholds]
  cases hfind : Assoc.find? a rows with
  | none => rfl
  | some value => exact absurd ((hkeeps a value).1 hfind) (hnone value)

/-- A get returns what a read past the cache would, and leaves the cache honest. -/
theorem get (raw : Bytes) (a : Address) :
    (s.get raw a).2 = Site.answer s.backend raw a ∧ Honest holds limit (s.get raw a).1 log := by
  obtain ⟨ms, rows, hholds, hms, hkeeps⟩ := h.backend
  cases hpeek : s.cache.peek s.now a with
  | some value =>
    have hstored := h.held a value (Held.holds_of_peek hpeek)
    rw [Site.get_hit raw hpeek]
    refine ⟨((h.answer_ok_iff hfree raw a value).2 hstored).symm,
      ⟨ms, rows, hfree.counted 0 hholds, hms, hkeeps⟩, h.idle.hit hpeek, ?_, ?_⟩
    · rw [ReadCache.consult_config]
      exact h.allowed
    · intro b held hhas
      rw [ReadCache.consult_hit hpeek] at hhas
      exact h.held b held (Held.holds_of_lookup hhas)
  | none =>
    have hleader := h.idle.leader? a
    have htime : (s.loader raw a).wait ≤ s.cache.config.fetchTimeoutMs := by
      have hwait : (s.loader raw a).wait = min ms Duration.longestWait := hfree.wait hholds
      rw [hwait, h.allowed]
      omega
    have houtcome : Timeline.Loader.outcome (s.loader raw a) s.cache.config a =
        Site.answer s.backend raw a := by
      rw [Timeline.Loader.outcome, if_pos htime]
      rfl
    rw [Site.get_miss raw hpeek hleader, houtcome]
    refine ⟨rfl, ⟨ms, rows, hfree.counted 1 hholds, hms, hkeeps⟩, h.idle.miss _ _ hpeek, ?_, ?_⟩
    · rw [ReadCache.settle_config, ReadCache.consult_config]
      exact h.allowed
    · intro b held hhas
      rcases ReadCache.holds_of_settle hhas with ⟨rfl, hanswer, _⟩ | hbefore
      · exact (h.answer_ok_iff hfree raw b held).1 hanswer
      · rw [ReadCache.consult_lead hpeek hleader] at hbefore
        exact h.held b held (Held.holds_of_lookup hbefore)

theorem has (a : Address) :
    ((s.has a).2 = .ok true ∧ (∃ value, Stored log a value) ∨
      (s.has a).2 = .ok false ∧ ∀ value, ¬ Stored log a value) ∧
      Honest holds limit (s.has a).1 log := by
  obtain ⟨ms, rows, hholds, hms, hkeeps⟩ := h.backend
  obtain ⟨hnext, hprobe⟩ := hfree.probe a hholds
  have hresult : (s.has a).2 = .ok (Assoc.find? a rows).isSome := hprobe
  refine ⟨?_, ⟨ms, rows, hnext, hms, hkeeps⟩, h.idle, h.allowed, h.held⟩
  cases hfind : Assoc.find? a rows with
  | some value =>
    rw [hfind] at hresult
    exact Or.inl ⟨hresult, value, (hkeeps a value).1 hfind⟩
  | none =>
    rw [hfind] at hresult
    refine Or.inr ⟨hresult, fun value hstored => ?_⟩
    cases hfind.symm.trans ((hkeeps a value).2 hstored)

theorem make_ok (request : Request) : (s.make request).2 = .ok () := by
  obtain ⟨ms, rows, hholds, _⟩ := h.backend
  obtain ⟨backend, hmake, _⟩ := hfree.make hholds request
  rw [hmake]

/-- A write leaves the cache honest if it leaves stored what the cache does not forget. -/
theorem make (request : Request)
    (hkept : ∀ a value, Stored log a value → a ∉ request.forgotten →
      Stored (log ++ request.deeds) a value) :
    Honest holds limit (s.make request).1 (log ++ request.deeds) := by
  obtain ⟨ms, rows, hholds, hms, hkeeps⟩ := h.backend
  obtain ⟨backend, hmake, hnext⟩ := hfree.make hholds request
  obtain ⟨hidle, hconfig⟩ := h.idle.invalidateAll request.forgotten
  rw [hmake]
  refine ⟨⟨ms, _, hnext, hms, hkeeps.deeds request.deeds⟩, hidle, ?_, ?_⟩
  · exact (congrArg CacheConfig.fetchTimeoutMs hconfig).trans h.allowed
  · intro a value hhas
    obtain ⟨hnot, hbefore⟩ := ReadCache.holds_of_invalidateAll hhas
    exact hkept a value (h.held a value hbefore) hnot

/-- What is put to an address after a get has failed there is what the next get returns. -/
theorem get_after_put {raw : Bytes} {a : Address} {e : StoreError}
    (hfailed : (s.get raw a).2 = .error e) (raw' raw'' value : Bytes) :
    (((s.get raw a).1.make (.put raw' a value)).1.get raw'' a).2 = .ok value := by
  obtain ⟨hanswer, hread⟩ := h.get hfree raw a
  have hnone : ∀ old, ¬ Stored log a old := by
    intro old hstored
    have hok := hanswer.trans ((h.answer_ok_iff hfree raw a old).2 hstored)
    cases hok.symm.trans hfailed
  -- Nothing is stored at the address before the put, so the cache holds nothing to outlive it.
  have hafter := hread.make hfree (.put raw' a value) fun b old hstored _ =>
    stored_concat_put.2 (Or.inr ⟨fun heq => hnone old (heq ▸ hstored), hstored⟩)
  refine (hafter.get hfree raw'' a).1.trans ((hafter.answer_ok_iff hfree raw'' a value).2 ?_)
  exact stored_concat_put.2 (Or.inl ⟨rfl, rfl⟩)

theorem quiet {call : Session.Call} {s' : Site β} (hquiet : Session.Quiet pace s call s')
    (hquick : ∀ ms, call = .pace ms → ms ≤ limit) : Honest holds limit s' log := by
  cases hquiet with
  | same => exact h
  | get raw a => exact (h.get hfree raw a).2
  | has a => exact (h.has hfree a).2
  | clear =>
    refine ⟨h.backend, rfl, h.allowed, fun a value hhas => ?_⟩
    exact absurd hhas ((s.cache.clear_forgotten a).unheld value)
  | advance ms => exact ⟨h.backend, h.idle, h.allowed, h.held⟩
  | pace ms =>
    obtain ⟨_, rows, hholds, _, hkeeps⟩ := h.backend
    exact ⟨⟨ms, rows, hfree.paced ms hholds, hquick ms rfl, hkeeps⟩, h.idle, h.allowed, h.held⟩

end Honest

def Handle.uncached (h : Handle) (backend : β) (k : KeyForm) : Except StoreError Bytes :=
  match k.file h.scheme with
  | .ok found => Site.answer backend found.1 found.2
  | .error e => .error (.ofKeyError e)

namespace Session

def stepAt (pace : β → Nat → β) (s : Session (Site β) Buffer) (entry : Handle × Call) :
    Session (Site β) Buffer := (s.step (entry.1.facade pace) entry.2).1

def runAt (pace : β → Nat → β) (s : Session (Site β) Buffer) (history : List (Handle × Call)) :
    Session (Site β) Buffer := history.foldl (stepAt pace) s

def logAt (pace : β → Nat → β) (s : Session (Site β) Buffer) (history : List (Handle × Call)) :
    List Deed :=
  ledger (stepAt pace) (fun s entry => s.deeds entry.1 entry.2) s history

def start (backend : β) (config : CacheConfig) (now : Nat) : Session (Site β) Buffer :=
  ⟨⟨backend, .create config, now⟩, []⟩

end Session

theorem Honest.stepAt (hfree : FaultFree β pace holds) {limit : Nat} {s : Session (Site β) Buffer}
    {log : List Deed} (h : Honest holds limit s.site log) {entry : Handle × Session.Call}
    (hquick : ∀ ms, entry.2 = .pace ms → ms ≤ limit)
    (hcontent : ContentAddressed (log ++ s.deeds entry.1 entry.2)) :
    Honest holds limit (s.stepAt pace entry).site (log ++ s.deeds entry.1 entry.2) := by
  obtain ⟨handle, call⟩ := entry
  unfold Session.stepAt
  cases hrequest : Session.request? handle s.batches call with
  | none =>
    rw [Session.deeds_of_no_request hrequest, List.append_nil]
    exact h.quiet hfree (Session.quiet_of_no_request hrequest) hquick
  | some request =>
    rw [Session.deeds_of_ok hrequest (h.make_ok hfree request)] at hcontent ⊢
    rw [Session.step_of_request hrequest]
    refine h.make hfree request fun a value hstored hnot => ?_
    exact hstored.append hcontent fun deed hmem hremoves =>
      hnot (Request.mem_forgotten.2 ⟨deed, hmem, hremoves⟩)

/-- The cache is honest after a history whose fetches end in time and in which what is put to an
address between deletes is the same. -/
theorem honest_runAt (hfree : FaultFree β pace holds) {backend : β} {config : CacheConfig}
    {now ms : Nat} (hstart : holds backend ms []) (hms : ms ≤ config.fetchTimeoutMs)
    {history : List (Handle × Session.Call)}
    (hquick : ∀ entry ∈ history, ∀ ms, entry.2 = .pace ms → ms ≤ config.fetchTimeoutMs)
    (hcontent : ContentAddressed ((Session.start backend config now).logAt pace history)) :
    Honest holds config.fetchTimeoutMs ((Session.start backend config now).runAt pace history).site
      ((Session.start backend config now).logAt pace history) := by
  induction history using List.reverseRecOn with
  | nil =>
    refine ⟨⟨ms, [], hstart, hms, keeps_nil⟩, rfl, rfl, fun a value hhas => ?_⟩
    exact absurd hhas ((ReadCache.create_forgotten config a).unheld value)
  | append_singleton history entry ih =>
    have hlog : (Session.start backend config now).logAt pace (history ++ [entry]) =
        (Session.start backend config now).logAt pace history ++
          ((Session.start backend config now).runAt pace history).deeds entry.1 entry.2 :=
      ledger_concat ..
    have hrun : (Session.start backend config now).runAt pace (history ++ [entry]) =
        ((Session.start backend config now).runAt pace history).stepAt pace entry :=
      List.foldl_append
    rw [hlog] at hcontent ⊢
    rw [hrun]
    have hbefore := ih (fun earlier hmem => hquick earlier (List.mem_append_left _ hmem))
      hcontent.before
    exact hbefore.stepAt hfree (hquick entry (by simp)) hcontent

/-- Callers do not notice the cache in a session with the given log. -/
structure Transparent (pace : β → Nat → β) (s : Session (Site β) Buffer) (log : List Deed) :
    Prop where
  /-- A get returns what a read past the cache would return. -/
  get : ∀ (h : Handle) k, ((h.facade pace).get s.site k).2 = h.uncached s.site.backend k
  /-- Where a block is found, a get returns the bytes that are stored. -/
  present : ∀ (h : Handle) k, ((h.facade pace).has s.site k).2 = .ok true →
    ∃ raw a value, k.file h.scheme = .ok (raw, a) ∧ Stored log a value ∧
      ((h.facade pace).get s.site k).2 = .ok value
  /-- Where none is found, a get fails, and nothing is stored. -/
  absent : ∀ (h : Handle) k, ((h.facade pace).has s.site k).2 = .ok false →
    ∃ raw a, k.file h.scheme = .ok (raw, a) ∧ (∀ value, ¬ Stored log a value) ∧
      ((h.facade pace).get s.site k).2 = .error (.notFound (Hex.encode raw))
  /-- What is put after a get has failed is seen by the next get, whatever handles and keys are used
  for the address. -/
  visible : ∀ (h h' h'' : Handle) k k' k'' raw raw' raw'' a e value,
    k.file h.scheme = .ok (raw, a) → k'.file h'.scheme = .ok (raw', a) →
    k''.file h''.scheme = .ok (raw'', a) → ((h.facade pace).get s.site k).2 = .error e →
    ((h''.facade pace).get (s.runAt pace [(h, .get k), (h', .put k' value)]).site k'').2 = .ok value

/-- A key that is looked for is one that can be filed. -/
theorem Handle.filed_of_has {h : Handle} {s : Site β} {k : KeyForm} {found : Bool}
    (hhas : ((h.facade pace).has s k).2 = .ok found) :
    ∃ raw a, k.file h.scheme = .ok (raw, a) ∧ (s.has a).2 = .ok found := by
  rw [h.facade_has] at hhas
  cases hfile : k.file h.scheme with
  | error e =>
    rw [hfile] at hhas
    cases hhas
  | ok filed =>
    rw [hfile] at hhas
    exact ⟨filed.1, filed.2, rfl, hhas⟩

theorem Honest.transparent (hfree : FaultFree β pace holds) {limit : Nat}
    {s : Session (Site β) Buffer} {log : List Deed} (h : Honest holds limit s.site log) :
    Transparent pace s log where
  get handle k := by
    rw [handle.facade_get]
    unfold Handle.uncached
    cases k.file handle.scheme with
    | error e => rfl
    | ok found => exact (h.get hfree found.1 found.2).1
  present handle k hhas := by
    obtain ⟨raw, a, hfile, htrue⟩ := Handle.filed_of_has hhas
    rw [handle.facade_get, hfile]
    rcases (h.has hfree a).1 with ⟨_, value, hstored⟩ | ⟨hfalse, _⟩
    · refine ⟨raw, a, value, rfl, hstored, ?_⟩
      exact (h.get hfree raw a).1.trans ((h.answer_ok_iff hfree raw a value).2 hstored)
    · cases htrue.symm.trans hfalse
  absent handle k hhas := by
    obtain ⟨raw, a, hfile, hfalse⟩ := Handle.filed_of_has hhas
    rw [handle.facade_get, hfile]
    rcases (h.has hfree a).1 with ⟨htrue, _⟩ | ⟨_, hnone⟩
    · cases htrue.symm.trans hfalse
    · refine ⟨raw, a, rfl, hnone, ?_⟩
      exact (h.get hfree raw a).1.trans (h.answer_eq_notFound hfree hnone raw)
  visible handle handle' handle'' k k' k'' raw raw' raw'' a e value hk hk' hk'' hfailed := by
    rw [handle.facade_get, hk] at hfailed
    have hget : (s.stepAt pace (handle, .get k)).site = (s.site.get raw a).1 := by
      simp only [Session.stepAt, Session.step, handle.facade_get, hk]
      rfl
    have hput : (s.runAt pace [(handle, .get k), (handle', .put k' value)]).site =
        ((s.site.get raw a).1.make (.put raw' a value)).1 := by
      have hrequest : Session.request? handle' (s.stepAt pace (handle, .get k)).batches
          (.put k' value) = some (.put raw' a value) := by
        simp only [Session.request?, hk']
        rfl
      rw [← hget]
      exact congrArg (fun step => step.1.site) (Session.step_of_request hrequest)
    rw [handle''.facade_get, hk'', hput]
    exact h.get_after_put hfree hfailed raw' raw'' value

/-- The read cache is transparent for both kinds of database. -/
theorem cacheTransparent (config : CacheConfig) (now : Nat)
    {history : List (Handle × Session.Call)}
    (hquick : ∀ entry ∈ history, ∀ ms, entry.2 = .pace ms → ms ≤ config.fetchTimeoutMs) :
    (∀ batches,
      let s : Session (Site BlockService) Buffer := .start { store := {}, batches } config now
      ContentAddressed (s.logAt BlockService.pace history) →
        Transparent BlockService.pace (s.runAt BlockService.pace history)
          (s.logAt BlockService.pace history)) ∧
    ∀ connections,
      let s : Session (Site Relational) Buffer := .start (.fresh connections) config now
      ContentAddressed (s.logAt Relational.pace history) →
        Transparent Relational.pace (s.runAt Relational.pace history)
          (s.logAt Relational.pace history) := by
  constructor
  · intro batches s hcontent
    have hstart : BlockService.Serves { store := {}, batches } 0 [] := ⟨rfl, rfl, rfl⟩
    exact (honest_runAt BlockService.faultFree hstart (Nat.zero_le _) hquick hcontent).transparent
      BlockService.faultFree
  · intro connections s hcontent
    have hstart : (Relational.fresh connections).Serves 0 [] := ⟨rfl, rfl, rfl, rfl, rfl, [], rfl⟩
    exact (honest_runAt Relational.faultFree hstart (Nat.zero_le _) hquick hcontent).transparent
      Relational.faultFree

namespace Rewritten

def blocks : BlockDatabase := ⟨{}⟩

def tables : SqlDatabase := ⟨{}⟩

def key : KeyForm := .raw [0x6b]

/-- A block is read and put once more as it is, and another one once it is deleted. -/
def calls : List Session.Call :=
  [.pace 60, .put key [1], .get key, .put key [1], .get key, .delete key, .put key [2], .get key]

def history (h : Handle) : List (Handle × Session.Call) := calls.map (h, ·)

theorem quick (h : Handle) :
    ∀ entry ∈ history h, ∀ ms, entry.2 = .pace ms → ms ≤ blocks.config.cache.fetchTimeoutMs := by
  intro entry hmem ms hpace
  obtain ⟨call, hcall, rfl⟩ := List.mem_map.1 hmem
  obtain rfl : call = .pace ms := hpace
  obtain rfl : ms = 60 := by simpa [calls] using hcall
  decide

def written (a : Address) : List Deed :=
  [.put [0x6b] a [1], .put [0x6b] a [1], .delete [0x6b] a, .put [0x6b] a [2]]

theorem contentAddressed_written (a : Address) : ContentAddressed (written a) := by
  have hsteps : written a =
      [] ++ [.put [0x6b] a [1]] ++ [.put [0x6b] a [1]] ++ [.delete [0x6b] a] ++
        [.put [0x6b] a [2]] := rfl
  rw [hsteps]
  simp only [contentAddressed_concat, since_concat]
  simp [contentAddressed_nil, not_since_nil, Deed.Stores, Deed.Removes]

def blocksStart : Session (Site BlockService) Buffer :=
  .start { store := {}, batches := true } blocks.config.cache 0

def tablesStart : Session (Site Relational) Buffer :=
  .start (.fresh tables.config.maxConnections) blocks.config.cache 0

theorem blocks_content :
    ContentAddressed (blocksStart.logAt BlockService.pace (history blocks.handle)) := by
  have hwritten : ∃ a,
      blocksStart.logAt BlockService.pace (history blocks.handle) = written a := ⟨_, rfl⟩
  obtain ⟨a, hwritten⟩ := hwritten
  rw [hwritten]
  exact contentAddressed_written a

theorem tables_content :
    ContentAddressed (tablesStart.logAt Relational.pace (history tables.handle)) := by
  have hwritten : ∃ a,
      tablesStart.logAt Relational.pace (history tables.handle) = written a := ⟨_, rfl⟩
  obtain ⟨a, hwritten⟩ := hwritten
  rw [hwritten]
  exact contentAddressed_written a

/-- Both kinds of database serve the block that was put in the place of a deleted one. -/
theorem cacheTransparent_rewritten :
    ContentAddressed (blocksStart.logAt BlockService.pace (history blocks.handle)) ∧
      ContentAddressed (tablesStart.logAt Relational.pace (history tables.handle)) ∧
      ((blocks.handle.facade BlockService.pace).get
        (blocksStart.runAt BlockService.pace (history blocks.handle)).site key).2 = .ok [2] ∧
      ((tables.handle.facade Relational.pace).get
        (tablesStart.runAt Relational.pace (history tables.handle)).site key).2 = .ok [2] ∧
      Transparent BlockService.pace (blocksStart.runAt BlockService.pace (history blocks.handle))
        (blocksStart.logAt BlockService.pace (history blocks.handle)) ∧
      Transparent Relational.pace (tablesStart.runAt Relational.pace (history tables.handle))
        (tablesStart.logAt Relational.pace (history tables.handle)) :=
  ⟨blocks_content, tables_content, rfl, rfl,
    (cacheTransparent blocks.config.cache 0 (quick blocks.handle)).1 true blocks_content,
    (cacheTransparent blocks.config.cache 0 (quick tables.handle)).2
      tables.config.maxConnections tables_content⟩

end Rewritten

end KeyedBlocks
