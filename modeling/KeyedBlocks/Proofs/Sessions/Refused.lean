import KeyedBlocks.Proofs.Address.Injective
import KeyedBlocks.Proofs.Sessions.Deeds

/-!
Calls whose key the scheme of a handle cannot file. Such a call is answered with the error of the
scheme, and nothing changes: neither the site nor any open batch.
-/
namespace KeyedBlocks

/-- A key that resolves to a verbatim source too long for a content identifier. -/
def KeyForm.TooLong (k : KeyForm) : Prop :=
  ∃ raw bytes, k.resolve = .ok (raw, .verbatim bytes) ∧ Multihash.maxPayload < bytes.length

theorem KeyForm.TooLong.derive {k : KeyForm} (h : k.TooLong) (codec : Codec) :
    ∃ key detail, k.key = .ok key ∧
      (Scheme.keccakCid codec).derive key = .error (.encoding detail) := by
  obtain ⟨raw, bytes, hresolve, hlong⟩ := h
  have hfits : ¬ (Scheme.keccakCid codec).Fits (.verbatim bytes) := by
    intro hfits
    have hshort := hfits codec .keccak256 bytes rfl rfl
    omega
  obtain ⟨detail, hlocate⟩ := Scheme.locate_of_not_fits hfits
  unfold KeyForm.resolve at hresolve
  cases hkey : k.key with
  | error e =>
    rw [hkey] at hresolve
    cases hresolve
  | ok key =>
    rw [hkey] at hresolve
    refine ⟨key, detail, rfl, ?_⟩
    have hsource : key.source = .ok (.verbatim bytes) := by
      cases hfound : key.source with
      | error e =>
        have hbind : (key.source >>= fun source => Except.ok (key.raw, source)) = _ := hresolve
        rw [hfound] at hbind
        cases hbind
      | ok source =>
        have hbind : (key.source >>= fun source => Except.ok (key.raw, source)) = _ := hresolve
        rw [hfound] at hbind
        cases hbind
        rfl
    show (key.source >>= (Scheme.keccakCid codec).locate) = _
    rw [hsource]
    exact hlocate

/-- A key without an address cannot be filed. -/
theorem KeyForm.file_refused {scheme : Scheme} {k : KeyForm} {key : Key} {e : KeyError}
    (hkey : k.key = .ok key) (hderive : scheme.derive key = .error e) :
    k.file scheme = .error e := by
  have hfile : k.file scheme = (k.key >>= fun key => (scheme.derive key).map (key.raw, ·)) := rfl
  rw [hfile, hkey]
  show (scheme.derive key).map (key.raw, ·) = _
  rw [hderive]
  rfl

theorem Buffer.create_scheme {scheme : Scheme} {capacity : Nat} {b : Buffer}
    (h : create scheme capacity = .ok b) : b.scheme = scheme := by
  unfold create RecencyMap.create at h
  split at h
  · cases h
  · cases h
    rfl

namespace Session

variable {β ω : Type} [Backend β ω] {handle : Handle} {pace : β → Nat → β}

def Schemed (scheme : Scheme) (s : Session (Site β) Buffer) : Prop :=
  ∀ b ∈ s.batches, b.scheme = scheme

theorem Schemed.step {s : Session (Site β) Buffer} (h : s.Schemed handle.scheme) (call : Call) :
    (s.step (handle.facade pace) call).1.Schemed handle.scheme := by
  refine forall_batches_step h (fun b hnew => Buffer.create_scheme hnew) (fun b hb => hb)
    (fun _ k value _ b hb => ?_) fun _ k _ b hb => ?_
  · cases k.file b.scheme <;> exact hb
  · cases k.file b.scheme <;> exact hb

theorem Schemed.run {s : Session (Site β) Buffer} (h : s.Schemed handle.scheme)
    (calls : List Call) : (s.run (handle.facade pace) calls).Schemed handle.scheme := by
  induction calls generalizing s with
  | nil => exact h
  | cons call rest ih => exact ih (h.step call)

/-- A change of an open batch that leaves the batch as it is. -/
theorem onBatch_refused {σ : Type} {s : Session σ Buffer} {batch : Nat} {b : Buffer}
    {change : Buffer → Buffer × Except StoreError Unit} {e : StoreError}
    (hbatch : s.batches[batch]? = some b) (hchange : change b = (b, .error e)) :
    s.onBatch batch change = (s, .did (.error e)) := by
  obtain ⟨hlt, hget⟩ := List.getElem?_eq_some_iff.1 hbatch
  have hset : s.batches.set batch b = s.batches := by
    rw [← hget, List.set_getElem_self]
  simp only [onBatch, hbatch, hchange, hset]

/-- A call whose key has no address, on a batch that is open if it is on a batch. -/
theorem step_refused {s : Session (Site β) Buffer} (h : s.Schemed handle.scheme) {call : Call}
    {k : KeyForm} {key : Key} {e : KeyError} (hcall : call.key? = some k)
    (hopen : ∀ batch, call.batch? = some batch → batch < s.batches.length)
    (hkey : k.key = .ok key) (hderive : handle.scheme.derive key = .error e) :
    (s.step (handle.facade pace) call).1 = s ∧
      (s.step (handle.facade pace) call).2.error? = some (.ofKeyError e) := by
  have hfile : k.file handle.scheme = .error e := KeyForm.file_refused hkey hderive
  cases call with
  | put k value =>
    cases hcall
    rw [step, handle.facade_put, hfile]
    exact ⟨rfl, rfl⟩
  | get k =>
    cases hcall
    rw [step, handle.facade_get, hfile]
    exact ⟨rfl, rfl⟩
  | has k =>
    cases hcall
    rw [step, handle.facade_has, hfile]
    exact ⟨rfl, rfl⟩
  | delete k =>
    cases hcall
    rw [step, handle.facade_delete, hfile]
    exact ⟨rfl, rfl⟩
  | batchPut batch k value =>
    cases hcall
    have hlt : batch < s.batches.length := hopen batch rfl
    rw [← h _ (List.getElem_mem hlt)] at hfile
    have hput := Buffer.put_file s.batches[batch] k value
    rw [hfile] at hput
    have hstep : s.step (handle.facade pace) (.batchPut batch k value) = _ :=
      onBatch_refused (List.getElem?_eq_getElem hlt) hput
    rw [hstep]
    exact ⟨rfl, rfl⟩
  | batchDelete batch k =>
    cases hcall
    have hlt : batch < s.batches.length := hopen batch rfl
    rw [← h _ (List.getElem_mem hlt)] at hfile
    have hdelete := Buffer.delete_file s.batches[batch] k
    rw [hfile] at hdelete
    have hstep : s.step (handle.facade pace) (.batchDelete batch k) = _ :=
      onBatch_refused (List.getElem?_eq_getElem hlt) hdelete
    rw [hstep]
    exact ⟨rfl, rfl⟩
  | clear | advance | pace | newBatch | batchSize | batchWrite | batchReset => cases hcall

end Session

end KeyedBlocks
