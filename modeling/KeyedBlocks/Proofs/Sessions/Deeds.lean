import KeyedBlocks.Proofs.Places
import KeyedBlocks.Proofs.Sessions.Facade

/-!
What a history of calls has written. A call makes at most one request at its site; a request that
succeeds carries out its deeds, each a put or a delete of one key, and they are entered in the log
of the history. A call that makes no request writes nothing.
-/
namespace KeyedBlocks

/-- A put or a delete of one key, with the address under which the key is filed. -/
inductive Deed
  | put (raw : Bytes) (a : Address) (value : Bytes)
  | delete (raw : Bytes) (a : Address)

namespace Deed

def Puts (raw : Bytes) (a : Address) (deed : Deed) : Prop := ∃ value, deed = .put raw a value

def Stores (a : Address) (value : Bytes) (deed : Deed) : Prop := ∃ raw, deed = .put raw a value

def Writes (a : Address) (deed : Deed) : Prop := ∃ raw value, deed = .put raw a value

def Removes (a : Address) (deed : Deed) : Prop := ∃ raw, deed = .delete raw a

end Deed

/-- A key was put to an address, and no key with that address has been deleted since. -/
def Live (log : List Deed) (raw : Bytes) (a : Address) : Prop :=
  Since (Deed.Puts raw a) (Deed.Removes a) log

def LastPut (log : List Deed) (a : Address) (value : Bytes) : Prop :=
  Since (Deed.Stores a value) (Deed.Writes a) log

/-- A value was put to an address, where nothing has been put or deleted since. -/
def Stored (log : List Deed) (a : Address) (value : Bytes) : Prop :=
  Since (Deed.Stores a value) (fun deed => deed.Writes a ∨ deed.Removes a) log

/-- A key with an address was deleted, and nothing has been put there since. -/
def Deleted (log : List Deed) (a : Address) : Prop :=
  Since (Deed.Removes a) (Deed.Writes a) log

section Log

variable {log : List Deed} {raw key : Bytes} {a b : Address} {value new : Bytes}

@[simp] theorem live_concat_put :
    Live (log ++ [.put raw a value]) key b ↔ (key = raw ∧ b = a) ∨ Live log key b := by
  simp [Live, since_concat, Deed.Puts, Deed.Removes, eq_comm]

@[simp] theorem live_concat_delete :
    Live (log ++ [.delete raw a]) key b ↔ b ≠ a ∧ Live log key b := by
  simp [Live, since_concat, Deed.Puts, Deed.Removes, eq_comm]

@[simp] theorem lastPut_concat_put :
    LastPut (log ++ [.put raw a value]) b new ↔
      (b = a ∧ new = value) ∨ (b ≠ a ∧ LastPut log b new) := by
  simp [LastPut, since_concat, Deed.Stores, Deed.Writes, eq_comm]

@[simp] theorem lastPut_concat_delete :
    LastPut (log ++ [.delete raw a]) b new ↔ LastPut log b new := by
  simp [LastPut, since_concat, Deed.Stores, Deed.Writes]

@[simp] theorem stored_concat_put :
    Stored (log ++ [.put raw a value]) b new ↔
      (b = a ∧ new = value) ∨ (b ≠ a ∧ Stored log b new) := by
  simp [Stored, since_concat, Deed.Stores, Deed.Writes, Deed.Removes, eq_comm]

@[simp] theorem stored_concat_delete :
    Stored (log ++ [.delete raw a]) b new ↔ b ≠ a ∧ Stored log b new := by
  simp [Stored, since_concat, Deed.Stores, Deed.Writes, Deed.Removes, eq_comm]

@[simp] theorem deleted_concat_put :
    Deleted (log ++ [.put raw a value]) b ↔ b ≠ a ∧ Deleted log b := by
  simp [Deleted, since_concat, Deed.Writes, Deed.Removes, eq_comm]

@[simp] theorem deleted_concat_delete :
    Deleted (log ++ [.delete raw a]) b ↔ b = a ∨ Deleted log b := by
  simp [Deleted, since_concat, Deed.Writes, Deed.Removes, eq_comm]

/-- A key whose address was deleted is not live. -/
theorem Deleted.not_live (h : Deleted log a) (key : Bytes) : ¬ Live log key a := by
  intro hlive
  refine h.not_both hlive (fun _ hremoves => hremoves) ?_ ?_
  · rintro _ ⟨new, rfl⟩
    exact ⟨key, new, rfl⟩
  · rintro _ ⟨other, rfl⟩ ⟨new, hput⟩
    cases hput

end Log

/-- What a history writes, if `deeds s x` is what is written by `x` when it happens at `s`. -/
def ledger {σ α : Type} (step : σ → α → σ) (deeds : σ → α → List Deed) : σ → List α → List Deed
  | _, [] => []
  | s, x :: rest => deeds s x ++ ledger step deeds (step s x) rest

theorem ledger_concat {σ α : Type} (step : σ → α → σ) (deeds : σ → α → List Deed) (s : σ)
    (history : List α) (x : α) :
    ledger step deeds s (history ++ [x]) =
      ledger step deeds s history ++ deeds (history.foldl step s) x := by
  induction history generalizing s with
  | nil => simp [ledger]
  | cons first rest ih => simp [ledger, ih]

/-- All puts of a batch and then all its deletes. -/
def Buffer.deeds (b : Buffer) : List Deed :=
  (b.putList.map fun entry => .put entry.1 entry.2.1 entry.2.2) ++
    b.deleteList.map fun entry => .delete entry.1 entry.2

def Request.deeds : Request → List Deed
  | .put raw a value => [.put raw a value]
  | .delete raw a => [.delete raw a]
  | .flush b => b.deeds

/-- The addresses that the cache forgets when a request succeeds. -/
def Request.forgotten : Request → List Address
  | .put .. => []
  | .delete _ a => [a]
  | .flush b => b.deleteList.map Prod.snd

/-- They are those of the keys that are deleted. -/
theorem Request.mem_forgotten {request : Request} {a : Address} :
    a ∈ request.forgotten ↔ ∃ deed ∈ request.deeds, deed.Removes a := by
  cases request with
  | put raw b value => simp [forgotten, deeds, Deed.Removes]
  | delete raw b => simp [forgotten, deeds, Deed.Removes, eq_comm]
  | flush b => simp [forgotten, deeds, Buffer.deeds, Deed.Removes, or_and_right, exists_or]

/-- After a request that deletes under an address nothing has been put there since. -/
theorem Request.deleted {request : Request} {a : Address} (h : a ∈ request.forgotten)
    (log : List Deed) : Deleted (log ++ request.deeds) a := by
  cases request with
  | put raw b value => exact absurd h List.not_mem_nil
  | delete raw b =>
    obtain rfl := List.mem_singleton.1 h
    exact deleted_concat_delete.2 (Or.inl rfl)
  | flush b =>
    obtain ⟨entry, hentry, rfl⟩ := List.mem_map.1 h
    obtain ⟨front, back, hdeletes⟩ := List.append_of_mem hentry
    -- Only deletes come behind a delete of a batch.
    refine ⟨log ++ (b.putList.map fun entry => .put entry.1 entry.2.1 entry.2.2) ++
      front.map fun entry => .delete entry.1 entry.2, .delete entry.1 entry.2,
      back.map fun entry => .delete entry.1 entry.2, ?_, ⟨entry.1, rfl⟩, ?_⟩
    · simp [deeds, Buffer.deeds, hdeletes]
    · rintro later hlater ⟨raw, value, rfl⟩
      obtain ⟨_, _, heq⟩ := List.mem_map.1 hlater
      cases heq

namespace KeyForm

/-- The raw key, and the address that is derived for it. -/
def fileUnder (derive : Key → Except KeyError Address) (k : KeyForm) :
    Except KeyError (Bytes × Address) := do
  let key ← k.key
  let a ← derive key
  return (key.raw, a)

def file (scheme : Scheme) (k : KeyForm) : Except KeyError (Bytes × Address) :=
  k.fileUnder scheme.derive

end KeyForm

theorem Key.classify_raw {bytes : Bytes} {key : Key} (h : classify bytes = .ok key) :
    key.raw = bytes := by
  unfold classify at h
  cases hkind : KeyClass.ofRaw bytes with
  | error e =>
    rw [hkind] at h
    cases h
  | ok kind =>
    rw [hkind] at h
    cases h
    rfl

/-- A raw key is filed as it is, under the address that it derives to. -/
theorem KeyForm.file_raw (scheme : Scheme) (bytes : Bytes) :
    (raw bytes).file scheme = (scheme.deriveRaw bytes).map (bytes, ·) := by
  have hfile : (raw bytes).file scheme =
      (Key.classify bytes >>= fun key => (scheme.derive key).map (key.raw, ·)) := rfl
  have hderive : scheme.deriveRaw bytes = (Key.classify bytes >>= scheme.derive) := rfl
  rw [hfile, hderive]
  cases hkey : Key.classify bytes with
  | error e => rfl
  | ok key =>
    rw [← Key.classify_raw hkey]
    rfl

theorem KeyForm.deriveRaw_of_file {scheme : Scheme} {k : KeyForm} {found : Bytes × Address}
    (hraw : ∃ bytes, k = raw bytes) (hfound : (k.file scheme).toOption = some found) :
    scheme.deriveRaw found.1 = .ok found.2 := by
  obtain ⟨bytes, rfl⟩ := hraw
  rw [file_raw] at hfound
  cases hderive : scheme.deriveRaw bytes with
  | error e =>
    rw [hderive] at hfound
    cases hfound
  | ok a =>
    rw [hderive] at hfound
    cases hfound
    exact hderive

/-- Act on a key that was filed; one that cannot be filed leaves the state as it is. -/
def onFiled {σ α : Type} (s : σ) (filed : Except KeyError (Bytes × Address))
    (act : Bytes → Address → σ × Except StoreError α) : σ × Except StoreError α :=
  match filed with
  | .ok found => act found.1 found.2
  | .error e => (s, .error (.ofKeyError e))

/-- Two entry points that act on a classified key, and on raw bytes once they are classified, act
on the key as it is filed. -/
theorem KeyForm.through_file {σ α : Type} {derive : Key → Except KeyError Address} (k : KeyForm)
    {s : σ} {act : Bytes → Address → σ × Except StoreError α}
    {onTyped : Key → σ × Except StoreError α} {onRaw : Bytes → σ × Except StoreError α}
    (htyped : ∀ key, onTyped key = onFiled s ((derive key).map (key.raw, ·)) act)
    (hraw : ∀ bytes, onRaw bytes = match Key.classify bytes with
      | .ok key => onTyped key
      | .error e => (s, .error (.ofKeyError e))) :
    k.through onTyped onRaw = onFiled s (k.fileUnder derive) act := by
  cases k with
  | typed key => exact htyped key
  | raw bytes =>
    have hfile : (raw bytes).fileUnder derive =
        (Key.classify bytes >>= fun key => (derive key).map (key.raw, ·)) := rfl
    rw [hfile]
    refine (hraw bytes).trans ?_
    cases Key.classify bytes with
    | error e => rfl
    | ok key => exact htyped key

/-- The entry points of a handle act on the key as its scheme files it. -/
theorem Handle.through_file {β α : Type} (h : Handle) (s : Site β) (k : KeyForm)
    (act : Bytes → Address → Site β × Except StoreError α) :
    k.through (fun key => h.located s key (act key.raw))
        (fun bytes => classified s bytes fun key => h.located s key (act key.raw)) =
      onFiled s (k.file h.scheme) act := by
  refine k.through_file (fun key => ?_) fun bytes => rfl
  unfold located
  cases h.scheme.derive key <;> rfl

section Facade

variable {β ω : Type} [Backend β ω] (h : Handle) (pace : β → Nat → β) (s : Site β) (k : KeyForm)

theorem Handle.facade_put (value : Bytes) :
    (h.facade pace).put s k value =
      onFiled s (k.file h.scheme) fun raw a => s.put raw a value :=
  h.through_file s k fun raw a => s.put raw a value

theorem Handle.facade_get :
    (h.facade pace).get s k = onFiled s (k.file h.scheme) s.get :=
  h.through_file s k s.get

theorem Handle.facade_has :
    (h.facade pace).has s k = onFiled s (k.file h.scheme) fun _ a => s.has a :=
  h.through_file s k fun _ a => s.has a

theorem Handle.facade_delete :
    (h.facade pace).delete s k = onFiled s (k.file h.scheme) s.delete :=
  h.through_file s k s.delete

end Facade

namespace Buffer

/-- The entry points of a batch act on the key as it is filed, however addresses are derived. -/
theorem through_file (derive : Key → Except KeyError Address) (b : Buffer) (k : KeyForm)
    (act : Bytes → Address → Buffer × Except StoreError Unit) :
    k.through (fun key => b.located derive key (act key.raw))
        (fun bytes => b.classified bytes fun key => b.located derive key (act key.raw)) =
      onFiled b (k.fileUnder derive) act := by
  refine k.through_file (fun key => ?_) fun bytes => rfl
  unfold located
  cases derive key <;> rfl

theorem put_file (b : Buffer) (k : KeyForm) (value : Bytes) :
    k.through (fun key => b.put key value) (fun bytes => b.putRaw bytes value) =
      onFiled b (k.file b.scheme) (b.addPut value) :=
  b.through_file b.scheme.derive k (b.addPut value)

theorem delete_file (b : Buffer) (k : KeyForm) :
    k.through b.delete b.deleteRaw = onFiled b (k.file b.scheme) b.addDelete :=
  b.through_file b.scheme.derive k b.addDelete

end Buffer

namespace Session

variable {β ω : Type} [Backend β ω]

def request? (h : Handle) (batches : List Buffer) : Call → Option Request
  | .put k value => (k.file h.scheme).toOption.map fun found => .put found.1 found.2 value
  | .delete k => (k.file h.scheme).toOption.map fun found => .delete found.1 found.2
  | .batchWrite batch => batches[batch]?.map .flush
  | _ => none

inductive Quiet (pace : β → Nat → β) (s : Site β) : Call → Site β → Prop
  | same {call : Call} : Quiet pace s call s
  | get {call : Call} (raw : Bytes) (a : Address) : Quiet pace s call (s.get raw a).1
  | has {call : Call} (a : Address) : Quiet pace s call (s.has a).1
  | clear : Quiet pace s .clear { s with cache := s.cache.clear }
  | advance (ms : Nat) : Quiet pace s (.advance ms) { s with now := s.now + ms }
  | pace (ms : Nat) : Quiet pace s (.pace ms) { s with backend := pace s.backend ms }

variable {h : Handle} {pace : β → Nat → β} {s : Session (Site β) Buffer} {call : Call}

theorem onBatch_site {σ τ : Type} (s : Session σ τ) (batch : Nat)
    (change : τ → τ × Except StoreError Unit) : (s.onBatch batch change).1.site = s.site := by
  unfold onBatch
  cases s.batches[batch]? <;> rfl

/-- A call makes its request and replies how it went. -/
theorem step_of_request {request : Request} (hrequest : request? h s.batches call = some request) :
    s.step (h.facade pace) call =
      ({ s with site := (s.site.make request).1 }, .did (s.site.make request).2) := by
  cases call with
  | put k value =>
    simp only [step, h.facade_put]
    cases hfile : k.file h.scheme with
    | error e => simp [request?, hfile, Except.toOption] at hrequest
    | ok found =>
      simp only [request?, hfile, Except.toOption, Option.map_some, Option.some.injEq] at hrequest
      subst hrequest
      rfl
  | delete k =>
    simp only [step, h.facade_delete]
    cases hfile : k.file h.scheme with
    | error e => simp [request?, hfile, Except.toOption] at hrequest
    | ok found =>
      simp only [request?, hfile, Except.toOption, Option.map_some, Option.some.injEq] at hrequest
      subst hrequest
      rfl
  | batchWrite batch =>
    simp only [request?, Option.map_eq_some_iff] at hrequest
    obtain ⟨b, hbatch, rfl⟩ := hrequest
    simp only [step, hbatch]
    rfl
  | _ => cases hrequest

/-- A call without a request leaves the site alone, or reads, or sets the cache or the clock. -/
theorem quiet_of_no_request (hrequest : request? h s.batches call = none) :
    Quiet pace s.site call (s.step (h.facade pace) call).1.site := by
  cases call with
  | put k value =>
    simp only [step, h.facade_put]
    cases hfile : k.file h.scheme with
    | error e => exact .same
    | ok found => simp [request?, hfile, Except.toOption] at hrequest
  | delete k =>
    simp only [step, h.facade_delete]
    cases hfile : k.file h.scheme with
    | error e => exact .same
    | ok found => simp [request?, hfile, Except.toOption] at hrequest
  | get k =>
    simp only [step, h.facade_get]
    cases k.file h.scheme with
    | error e => exact .same
    | ok found => exact .get found.1 found.2
  | has k =>
    simp only [step, h.facade_has]
    cases k.file h.scheme with
    | error e => exact .same
    | ok found => exact .has found.2
  | clear => exact .clear
  | advance ms => exact .advance ms
  | pace ms => exact .pace ms
  | newBatch =>
    simp only [step]
    cases (h.facade pace).newBatch <;> exact .same
  | batchPut | batchDelete | batchReset =>
    rw [step, onBatch_site]
    exact .same
  | batchSize batch =>
    simp only [step]
    cases s.batches[batch]? <;> exact .same
  | batchWrite batch =>
    simp only [request?, Option.map_eq_none_iff] at hrequest
    simp only [step, hrequest]
    exact .same

theorem forall_batches_onBatch {σ τ : Type} {s : Session σ τ} {P : τ → Prop}
    (hall : ∀ b ∈ s.batches, P b) (batch : Nat) {change : τ → τ × Except StoreError Unit}
    (hkeep : ∀ b, P b → P (change b).1) : ∀ b ∈ (s.onBatch batch change).1.batches, P b := by
  unfold onBatch
  cases hbatch : s.batches[batch]? with
  | none => exact hall
  | some old =>
    intro b hmem
    rcases List.mem_or_eq_of_mem_set hmem with hold | rfl
    · exact hall b hold
    · exact hkeep old (hall old (List.mem_of_getElem? hbatch))

/-- What holds of all open batches goes on to hold, if it holds of a new one and survives what can
be done to a batch. -/
theorem forall_batches_step {P : Buffer → Prop} (hall : ∀ b ∈ s.batches, P b)
    (hnew : ∀ b, h.newBatch = .ok b → P b) (hreset : ∀ b, P b → P b.reset)
    (hput : ∀ batch k value, call = .batchPut batch k value →
      ∀ b, P b → P (onFiled b (k.file b.scheme) (b.addPut value)).1)
    (hdelete : ∀ batch k, call = .batchDelete batch k →
      ∀ b, P b → P (onFiled b (k.file b.scheme) b.addDelete).1) :
    ∀ b ∈ (s.step (h.facade pace) call).1.batches, P b := by
  cases call with
  | put | get | has | delete | clear | advance | pace => exact hall
  | newBatch =>
    simp only [step]
    cases hcreate : (h.facade pace).newBatch with
    | error e => exact hall
    | ok b =>
      intro other hmem
      rcases List.mem_append.1 hmem with hold | hlast
      · exact hall other hold
      · obtain rfl := List.mem_singleton.1 hlast
        exact hnew other hcreate
  | batchPut batch k value =>
    refine forall_batches_onBatch hall batch fun b hb => ?_
    show P (k.through (fun key => b.put key value) fun bytes => b.putRaw bytes value).1
    rw [Buffer.put_file]
    exact hput batch k value rfl b hb
  | batchDelete batch k =>
    refine forall_batches_onBatch hall batch fun b hb => ?_
    show P (k.through b.delete b.deleteRaw).1
    rw [Buffer.delete_file]
    exact hdelete batch k rfl b hb
  | batchSize batch | batchWrite batch =>
    simp only [step]
    cases s.batches[batch]? <;> exact hall
  | batchReset batch => exact forall_batches_onBatch hall batch hreset

def deeds (h : Handle) (s : Session (Site β) Buffer) (call : Call) : List Deed :=
  match request? h s.batches call with
  | some request =>
      match (s.site.make request).2 with
      | .ok () => request.deeds
      | .error _ => []
  | none => []

theorem deeds_of_no_request (hrequest : request? h s.batches call = none) :
    deeds h s call = [] := by
  unfold deeds
  rw [hrequest]

theorem deeds_of_ok {request : Request} (hrequest : request? h s.batches call = some request)
    (hok : (s.site.make request).2 = .ok ()) : deeds h s call = request.deeds := by
  unfold deeds
  rw [hrequest]
  simp only [hok]

theorem deeds_of_error {request : Request} {e : StoreError}
    (hrequest : request? h s.batches call = some request)
    (herror : (s.site.make request).2 = .error e) : deeds h s call = [] := by
  unfold deeds
  rw [hrequest]
  simp only [herror]

/-- A deed is one of a request that succeeded. -/
theorem request_of_deed {deed : Deed} (hdeed : deed ∈ deeds h s call) :
    ∃ request, request? h s.batches call = some request ∧ (s.site.make request).2 = .ok () ∧
      deed ∈ request.deeds := by
  cases hrequest : request? h s.batches call with
  | none =>
    rw [deeds_of_no_request hrequest] at hdeed
    exact absurd hdeed List.not_mem_nil
  | some request =>
    cases hresult : (s.site.make request).2 with
    | error e =>
      rw [deeds_of_error hrequest hresult] at hdeed
      exact absurd hdeed List.not_mem_nil
    | ok =>
      rw [deeds_of_ok hrequest hresult] at hdeed
      exact ⟨request, rfl, hresult, hdeed⟩

end Session

end KeyedBlocks
