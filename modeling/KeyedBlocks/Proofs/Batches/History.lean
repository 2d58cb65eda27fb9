import KeyedBlocks.Proofs.Batches.Contents

/-!
One batch in a history of calls. Most calls leave it as it is, a few buffer a deed in it, and some
create or empty it. Since it was last empty the batch has been filled by the deeds that the calls
since then buffered, whatever else was called in between; and what is no more pending by the end was
named in the reply to one of the calls.
-/
namespace KeyedBlocks.Session

variable {β ω : Type} [Backend β ω] {h : Handle} {s : Session (Site β) Buffer} {batch : Nat}
  {b : Buffer} {log : List Deed}

def buffered? (scheme : Scheme) (batch : Nat) : Call → Option Deed
  | .batchPut n k value =>
      if n = batch then (k.file scheme).toOption.map fun found => .put found.1 found.2 value
      else none
  | .batchDelete n k =>
      if n = batch then (k.file scheme).toOption.map fun found => .delete found.1 found.2
      else none
  | _ => none

def batchLog (scheme : Scheme) (batch : Nat) (calls : List Call) : List Deed :=
  calls.filterMap (buffered? scheme batch)

theorem batchLog_concat (scheme : Scheme) (batch : Nat) (calls : List Call) (call : Call) :
    batchLog scheme batch (calls ++ [call]) =
      batchLog scheme batch calls ++ (buffered? scheme batch call).toList := by
  unfold batchLog
  rw [List.filterMap_append]
  cases hdeed : buffered? scheme batch call with
  | none => rw [List.filterMap_cons_none hdeed]; rfl
  | some deed => rw [List.filterMap_cons_some hdeed]; rfl

theorem run_append {σ τ : Type} (F : Facade σ τ) (s : Session σ τ) (calls more : List Call) :
    s.run F (calls ++ more) = (s.run F calls).run F more :=
  List.foldl_append

theorem run_concat {σ τ : Type} (F : Facade σ τ) (s : Session σ τ) (calls : List Call)
    (call : Call) : s.run F (calls ++ [call]) = ((s.run F calls).step F call).1 :=
  run_append F s calls [call]

theorem onBatch_self {σ τ : Type} {s : Session σ τ} {batch : Nat} {b : τ}
    (hbatch : s.batches[batch]? = some b) (change : τ → τ × Except StoreError Unit) :
    (s.onBatch batch change).1.batches[batch]? = some (change b).1 ∧
      (s.onBatch batch change).2 = .did (change b).2 := by
  have hlength : batch < s.batches.length := (List.getElem?_eq_some_iff.1 hbatch).1
  have hchange : s.onBatch batch change =
      ({ s with batches := s.batches.set batch (change b).1 }, .did (change b).2) := by
    simp only [onBatch, hbatch]
  rw [hchange]
  exact ⟨List.getElem?_set_self hlength, rfl⟩

theorem onBatch_of_ne {σ τ : Type} {s : Session σ τ} {n batch : Nat} (hne : n ≠ batch)
    (change : τ → τ × Except StoreError Unit) :
    (s.onBatch n change).1.batches[batch]? = s.batches[batch]? := by
  unfold onBatch
  cases s.batches[n]? with
  | none => rfl
  | some old => exact List.getElem?_set_ne hne

/-- What a call that does not reset a batch makes of it, and what it replies if it uses it. -/
inductive Touches (scheme : Scheme) (batch : Nat) (b : Buffer) (call : Call) :
    Buffer → Reply → Prop
  | same {reply : Reply} (hnone : buffered? scheme batch call = none) :
      Touches scheme batch b call b reply
  | buffers {deed : Deed} (hsome : buffered? scheme batch call = some deed) :
      Touches scheme batch b call (b.add deed).1 (.did (b.add deed).2)

theorem batch?_of_buffered {scheme : Scheme} {call : Call} {deed : Deed}
    (hdeed : buffered? scheme batch call = some deed) : call.batch? = some batch := by
  cases call with
  | batchPut n k value =>
    by_cases hn : n = batch
    · exact congrArg some hn
    · cases (if_neg hn).symm.trans hdeed
  | batchDelete n k =>
    by_cases hn : n = batch
    · exact congrArg some hn
    · cases (if_neg hn).symm.trans hdeed
  | _ => cases hdeed

/-- A change to a batch buffers the key that it is given, if that can be filed. -/
theorem touches_onBatch {scheme : Scheme} {call : Call} {k : KeyForm}
    {change : Buffer → Buffer × Except StoreError Unit} (deed : Bytes → Address → Deed)
    (hbatch : s.batches[batch]? = some b)
    (hcall : buffered? scheme batch call =
      (k.file scheme).toOption.map fun found => deed found.1 found.2)
    (hchange : change b = onFiled b (k.file scheme) fun raw a => b.add (deed raw a)) :
    ∃ next, (s.onBatch batch change).1.batches[batch]? = some next ∧
      Touches scheme batch b call next (s.onBatch batch change).2 := by
  obtain ⟨hnext, hreply⟩ := onBatch_self hbatch change
  refine ⟨_, hnext, ?_⟩
  rw [hreply, hchange]
  cases hfile : k.file scheme with
  | error e => exact .same (by rw [hcall, hfile]; rfl)
  | ok found => exact .buffers (by rw [hcall, hfile]; rfl)

theorem Touches.holds {call : Call} {next : Buffer} {reply : Reply}
    (htouches : Touches h.scheme batch b call next reply) (hholds : b.Holds h log) :
    next.Holds h (log ++ (buffered? h.scheme batch call).toList) := by
  cases htouches with
  | same hnone => rwa [hnone, Option.toList_none, List.append_nil]
  | buffers hsome =>
    rw [hsome]
    exact hholds.add _

/-- The key of a deed is pending right after the call that buffers it. -/
theorem Touches.key_mem {call : Call} {next : Buffer} {reply : Reply} {deed : Deed}
    (htouches : Touches h.scheme batch b call next reply) (hholds : b.Holds h log)
    (hdeed : buffered? h.scheme batch call = some deed) : deed.key ∈ next.keys deed.bucket := by
  cases htouches with
  | same hnone => cases hnone.symm.trans hdeed
  | buffers hsome =>
    cases hsome.symm.trans hdeed
    exact hholds.key_mem_add deed

/-- A call that takes a pending key away from a batch replies with a warning. -/
theorem Touches.warned {call : Call} {next : Buffer} {reply : Reply}
    (htouches : Touches h.scheme batch b call next reply) (hholds : b.Holds h log)
    {bucket : Bucket} {key : Bytes} (hold : key ∈ b.keys bucket) (hgone : key ∉ next.keys bucket) :
    call.batch? = some batch ∧ reply = .did (.error (.evicted bucket (Hex.encode key))) := by
  cases htouches with
  | same => exact absurd hold hgone
  | buffers hsome => exact ⟨batch?_of_buffered hsome, congrArg Reply.did (hholds.warned hold hgone)⟩

theorem step_touches (pace : β → Nat → β) (hbatch : s.batches[batch]? = some b)
    (hscheme : b.scheme = h.scheme) {call : Call} (hkept : call ≠ .batchReset batch) :
    ∃ next, (s.step (h.facade pace) call).1.batches[batch]? = some next ∧
      Touches h.scheme batch b call next (s.step (h.facade pace) call).2 := by
  cases call with
  | put | get | has | delete | clear | advance | pace => exact ⟨b, hbatch, .same rfl⟩
  | newBatch =>
    simp only [step]
    cases (h.facade pace).newBatch with
    | error e => exact ⟨b, hbatch, .same rfl⟩
    | ok new =>
      have hlength : batch < s.batches.length := (List.getElem?_eq_some_iff.1 hbatch).1
      exact ⟨b, (List.getElem?_append_left hlength).trans hbatch, .same rfl⟩
  | batchPut n k value =>
    by_cases hn : n = batch
    · subst hn
      refine touches_onBatch (k := k) (fun raw a => .put raw a value) hbatch ?_ ?_
      · simp only [buffered?, if_true]
      · rw [← hscheme]
        exact b.put_file k value
    · exact ⟨b, (onBatch_of_ne hn _).trans hbatch, .same (if_neg hn)⟩
  | batchDelete n k =>
    by_cases hn : n = batch
    · subst hn
      refine touches_onBatch (k := k) .delete hbatch ?_ ?_
      · simp only [buffered?, if_true]
      · rw [← hscheme]
        exact b.delete_file k
    · exact ⟨b, (onBatch_of_ne hn _).trans hbatch, .same (if_neg hn)⟩
  | batchSize n | batchWrite n =>
    simp only [step]
    cases s.batches[n]? <;> exact ⟨b, hbatch, .same rfl⟩
  | batchReset n =>
    have hn : n ≠ batch := fun heq => hkept (heq ▸ rfl)
    exact ⟨b, (onBatch_of_ne hn _).trans hbatch, .same rfl⟩

/-- A batch goes on to hold its log. -/
theorem run_holds (pace : β → Nat → β) (hbatch : s.batches[batch]? = some b)
    (hholds : b.Holds h log) {calls : List Call}
    (hkept : ∀ call ∈ calls, call ≠ .batchReset batch) :
    ∃ next, (s.run (h.facade pace) calls).batches[batch]? = some next ∧
      next.Holds h (log ++ batchLog h.scheme batch calls) := by
  induction calls using List.reverseRecOn with
  | nil =>
    rw [batchLog, List.filterMap_nil, List.append_nil]
    exact ⟨b, hbatch, hholds⟩
  | append_singleton calls call ih =>
    obtain ⟨old, hold, hbefore⟩ := ih fun other hmem => hkept other (List.mem_append_left _ hmem)
    obtain ⟨next, hnext, htouches⟩ :=
      step_touches pace hold hbefore.scheme (hkept call (by simp))
    rw [run_concat, batchLog_concat, ← List.append_assoc]
    exact ⟨next, hnext, htouches.holds hbefore⟩

/-- The reply to a call is the warning that a bucket of a batch gave up a key. -/
def Warns (h : Handle) (pace : β → Nat → β) (s : Session (Site β) Buffer) (batch : Nat)
    (bucket : Bucket) (key : Bytes) (call : Call) : Prop :=
  call.batch? = some batch ∧
    (s.step (h.facade pace) call).2 = .did (.error (.evicted bucket (Hex.encode key)))

/-- A key that was pending, and is so no more after some calls, was named in a warning. -/
theorem run_warns (pace : β → Nat → β) (hbatch : s.batches[batch]? = some b)
    (hholds : b.Holds h log) {calls : List Call}
    (hkept : ∀ call ∈ calls, call ≠ .batchReset batch) {bucket : Bucket} {key : Bytes}
    (hold : key ∈ b.keys bucket) {next : Buffer}
    (hnext : (s.run (h.facade pace) calls).batches[batch]? = some next)
    (hgone : key ∉ next.keys bucket) :
    ∃ before call after, calls = before ++ call :: after ∧
      Warns h pace (s.run (h.facade pace) before) batch bucket key call := by
  induction calls using List.reverseRecOn generalizing next with
  | nil =>
    cases hnext.symm.trans hbatch
    exact absurd hold hgone
  | append_singleton calls last ih =>
    have hearlier : ∀ call ∈ calls, call ≠ .batchReset batch := fun call hmem =>
      hkept call (List.mem_append_left _ hmem)
    obtain ⟨middle, hmiddle, hlog⟩ := run_holds pace hbatch hholds hearlier
    by_cases hpending : key ∈ middle.keys bucket
    · obtain ⟨after, hafter, htouches⟩ :=
        step_touches pace hmiddle hlog.scheme (hkept last (by simp))
      rw [run_concat] at hnext
      cases hafter.symm.trans hnext
      exact ⟨calls, last, [], rfl, htouches.warned hlog hpending hgone⟩
    · obtain ⟨before, call, after, rfl, hwarns⟩ := ih hearlier hmiddle hpending
      exact ⟨before, call, after ++ [last], by simp, hwarns⟩

/-- A call creates a batch or empties it. -/
structure Empties (h : Handle) (pace : β → Nat → β) (s : Session (Site β) Buffer) (batch : Nat)
    (call : Call) : Prop where
  which : (call = .newBatch ∧ batch = s.batches.length) ∨ call = .batchReset batch
  done : (s.step (h.facade pace) call).2 = .did (.ok ())

/-- All batches of a session hold what some log leaves. -/
theorem batches_hold (pace : β → Nat → β) (site : Site β) (calls : List Call) :
    ∀ b ∈ (run (h.facade pace) ⟨site, []⟩ calls).batches, ∃ log, b.Holds h log := by
  induction calls using List.reverseRecOn with
  | nil => exact fun b hmem => absurd hmem List.not_mem_nil
  | append_singleton calls call ih =>
    rw [run_concat]
    refine forall_batches_step ih (fun b hnew => ⟨[], Buffer.holds_create hnew⟩) ?_ ?_ ?_
    · rintro b ⟨log, hlog⟩
      exact ⟨[], hlog.reset⟩
    · rintro _ k value _ b ⟨log, hlog⟩
      cases k.file b.scheme with
      | error e => exact ⟨log, hlog⟩
      | ok found => exact ⟨_, hlog.add (.put found.1 found.2 value)⟩
    · rintro _ k _ b ⟨log, hlog⟩
      cases k.file b.scheme with
      | error e => exact ⟨log, hlog⟩
      | ok found => exact ⟨_, hlog.add (.delete found.1 found.2)⟩

/-- A batch that was created or reset is there, and nothing is pending in it. -/
theorem Empties.holds {pace : β → Nat → β} {call : Call} (hempties : s.Empties h pace batch call)
    (hall : ∀ b ∈ s.batches, ∃ log, b.Holds h log) :
    ∃ b, (s.step (h.facade pace) call).1.batches[batch]? = some b ∧ b.Holds h [] := by
  have hdone := hempties.done
  rcases hempties.which with ⟨rfl, rfl⟩ | rfl
  · simp only [step] at hdone ⊢
    cases hnew : (h.facade pace).newBatch with
    | error e =>
      rw [hnew] at hdone
      cases hdone
    | ok b => exact ⟨b, List.getElem?_concat_length, Buffer.holds_create hnew⟩
  · cases hbatch : s.batches[batch]? with
    | none =>
      simp only [step, onBatch, hbatch] at hdone
      cases hdone
    | some b =>
      obtain ⟨log, hlog⟩ := hall b (List.mem_of_getElem? hbatch)
      exact ⟨b.reset, (onBatch_self hbatch _).1, hlog.reset⟩

/-- A call that may be made of a batch while it is filled: if it uses the batch, it does not reset
it, and it is given raw keys. -/
structure Call.Fills (batch : Nat) (call : Call) : Prop where
  kept : call ≠ .batchReset batch
  untyped : call.batch? = some batch → call.Untyped

/-- A deed that is buffered for a raw key is filed under the address that the key derives to. -/
theorem filed_of_buffered {scheme : Scheme} {call : Call} {deed : Deed}
    (hfills : call.Fills batch) (hdeed : buffered? scheme batch call = some deed) :
    deed.FiledBy scheme := by
  have huntyped := hfills.untyped (batch?_of_buffered hdeed)
  cases call with
  | batchPut n k value =>
    simp only [buffered?, Option.ite_none_right_eq_some, Option.map_eq_some_iff] at hdeed
    obtain ⟨_, found, hfound, rfl⟩ := hdeed
    exact KeyForm.deriveRaw_of_file huntyped hfound
  | batchDelete n k =>
    simp only [buffered?, Option.ite_none_right_eq_some, Option.map_eq_some_iff] at hdeed
    obtain ⟨_, found, hfound, rfl⟩ := hdeed
    exact KeyForm.deriveRaw_of_file huntyped hfound
  | _ => cases hdeed

theorem batchLog_filed {scheme : Scheme} {calls : List Call}
    (hfills : ∀ call ∈ calls, call.Fills batch) :
    ∀ deed ∈ batchLog scheme batch calls, deed.FiledBy scheme := by
  intro deed hmem
  obtain ⟨call, hcall, hdeed⟩ := List.mem_filterMap.1 hmem
  exact filed_of_buffered (hfills call hcall) hdeed

end KeyedBlocks.Session
