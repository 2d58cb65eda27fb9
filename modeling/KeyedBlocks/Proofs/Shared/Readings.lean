import KeyedBlocks.Proofs.Shared.Writes
import KeyedBlocks.Proofs.Traffic.Provenance

/-!
What the loaders at a shared site read, and when. A loader reads only while its get leads, so what
is answered for a get was found in the backend after its loader was started.
-/
namespace KeyedBlocks.SharedSite

variable {β ω : Type} [Backend β ω]

/-- A loader that has found something found it before, or reads the backend just now. -/
theorem reading_of_step {s : SharedSite β ω} {x : Access} {id : CallId} {raw : Bytes}
    {result : Except StoreError Bytes}
    (h : (s.step x).readings[id]? = some ⟨raw, some result⟩) :
    s.readings[id]? = some ⟨raw, some result⟩ ∨
      ∃ a since, x = .read id ∧ s.traffic.call? id = some ⟨a, .leading since none⟩ ∧
        result = Site.answer s.backend raw a := by
  cases x with
  | get handle key =>
    left
    rcases located_cases s handle key (s.beginGet key.raw) with hsame | ⟨a, _, hbegin⟩
    · exact (congrArg (fun s => s.readings[id]?) hsame).symm.trans h
    · have hold : (s.readings ++ [⟨key.raw, none⟩])[id]? = some ⟨raw, some result⟩ :=
        (congrArg (fun s => s.readings[id]?) hbegin).symm.trans h
      rcases Nat.lt_or_ge id s.readings.length with hlt | hge
      · rwa [List.getElem?_append_left hlt] at hold
      · rw [List.getElem?_append_right hge, List.getElem?_singleton] at hold
        split at hold <;> cases hold
  | read call =>
    simp only [step, read] at h
    split at h
    · rename_i other a since hreading hcall
      by_cases hid : id = call
      · subst hid
        have hlt : id < s.readings.length := (List.getElem?_eq_some_iff.1 hreading).1
        simp only [List.getElem?_set_self hlt] at h
        cases h
        exact Or.inr ⟨a, since, rfl, hcall, rfl⟩
      · rw [List.getElem?_set_ne (Ne.symm hid)] at h
        exact Or.inl h
    · exact Or.inl h
  | reply call =>
    simp only [step, reply] at h
    split at h <;> exact Or.inl h
  | move m => cases m <;> exact Or.inl h
  | put handle key value =>
    rcases located_cases s handle key fun a => s.beginWrite (.put key.raw a value) with
      hsame | ⟨a, _, hbegin⟩
    · exact Or.inl ((congrArg (fun s => s.readings[id]?) hsame).symm.trans h)
    · exact Or.inl ((congrArg (fun s => s.readings[id]?) hbegin).symm.trans h)
  | delete handle key =>
    rcases located_cases s handle key fun a => s.beginWrite (.delete key.raw a) with
      hsame | ⟨a, _, hbegin⟩
    · exact Or.inl ((congrArg (fun s => s.readings[id]?) hsame).symm.trans h)
    · exact Or.inl ((congrArg (fun s => s.readings[id]?) hbegin).symm.trans h)
  | flush b => exact Or.inl h
  | proceed write =>
    simp only [step, proceed] at h
    split at h <;> exact Or.inl h
  | drop write =>
    simp only [step, drop] at h
    split at h <;> exact Or.inl h

theorem pastWaiting_step {s : SharedSite β ω} {id : CallId} {a : Address} (x : Access)
    (h : s.traffic.PastWaiting id a) : (s.step x).traffic.PastWaiting id a := by
  rw [step_traffic]
  exact Traffic.pastWaiting_run _ h

theorem pastWaiting_run {s : SharedSite β ω} {id : CallId} {a : Address} (accesses : List Access)
    (h : s.traffic.PastWaiting id a) : (s.run accesses).traffic.PastWaiting id a := by
  rw [run_traffic]
  exact Traffic.pastWaiting_run _ h

/-- Only a get whose loader was started has read anything. -/
theorem pastWaiting_of_reading {backend : β} {config : CacheConfig} {now : Nat}
    {accesses : List Access} {id : CallId} {raw : Bytes} {result : Except StoreError Bytes}
    (h : ((start backend config now).run accesses).readings[id]? = some ⟨raw, some result⟩) :
    ∃ a, ((start backend config now).run accesses).traffic.PastWaiting id a := by
  induction accesses using List.reverseRecOn with
  | nil => simp [start] at h
  | append_singleton accesses x ih =>
    rw [run_append] at h ⊢
    rcases reading_of_step h with hold | ⟨a, since, _, hcall, _⟩
    · obtain ⟨a, hpast⟩ := ih hold
      exact ⟨a, pastWaiting_step x hpast⟩
    · exact ⟨a, pastWaiting_step x ⟨_, hcall, rfl⟩⟩

/-- What a loader has found since some moment it has read in the backend since. -/
theorem read_run {s : SharedSite β ω} {accesses : List Access} {id : CallId} {raw : Bytes}
    {result : Except StoreError Bytes}
    (hnew : ∀ raw result, s.readings[id]? ≠ some ⟨raw, some result⟩)
    (h : (s.run accesses).readings[id]? = some ⟨raw, some result⟩) :
    ∃ early late a since, accesses = early ++ .read id :: late ∧
      (s.run early).traffic.call? id = some ⟨a, .leading since none⟩ ∧
      result = Site.answer (s.run early).backend raw a := by
  induction accesses using List.reverseRecOn with
  | nil => exact absurd h (hnew raw result)
  | append_singleton accesses x ih =>
    rw [run_append] at h
    rcases reading_of_step h with hold | ⟨a, since, rfl, hcall, hresult⟩
    · obtain ⟨early, late, a, since, rfl, hread⟩ := ih hold
      exact ⟨early, late ++ [x], a, since, by simp, hread⟩
    · exact ⟨accesses, [], a, since, rfl, hcall, hresult⟩

theorem read_of_answer {backend : β} {raw value : Bytes} {a : Address}
    (h : Site.answer backend raw a = .ok value) : Backend.read backend a = .ok (some value) := by
  unfold Site.answer at h
  split at h
  · rename_i hread
    cases h
    exact hread
  · cases h
  · cases h

/-- A value for a key that was forgotten and is returned by a get begun since was read in the
backend since. -/
theorem read_of_returned {backend : β} {config : CacheConfig} {now : Nat}
    {before after : List Access} {id : CallId} {a : Address} {value : Bytes}
    (hforgotten : ((start backend config now).run before).traffic.cache.Forgotten a)
    (hnew : ((start backend config now).run before).traffic.call? id = none)
    (hreturned : (((start backend config now).run before).run after).traffic.call? id =
      some ⟨a, .returned (.ok value)⟩) :
    ∃ early leader late, after = early ++ .read leader :: late ∧
      (((start backend config now).run before).run early).traffic.LeadsFor leader a ∧
      Backend.read (((start backend config now).run before).run early).backend a =
        .ok (some value) := by
  have hwf : ((start backend config now).run before).traffic.WellFormed := by
    rw [run_traffic]
    exact (Traffic.start_wellFormed config now).run _
  rw [run_traffic ((start backend config now).run before)] at hreturned
  obtain ⟨leader, hstarted, front, m, back, hsplit, hdecides⟩ :=
    Traffic.returned_started hwf hforgotten hnew hreturned
  obtain ⟨early, x, late, rfl, htrace, hmove⟩ := access_of_trace hsplit
  rw [← htrace, ← run_traffic] at hdecides
  cases hdecides with
  | answer hcall =>
    obtain ⟨raw, hfound⟩ := reply_of_move? hmove
    have hunread : ∀ raw result, ((start backend config now).run before).readings[leader]? ≠
        some ⟨raw, some result⟩ := by
      intro raw result hreading
      obtain ⟨key, hpast⟩ := pastWaiting_of_reading hreading
      exact Traffic.not_mem_loaderStarts hpast _ hstarted
    obtain ⟨first, second, key, start, rfl, hleads, hanswer⟩ := read_run hunread hfound
    have hpast := pastWaiting_run (.read leader :: second) (Traffic.LeadsFor.pastWaiting
      ⟨start, none, hleads⟩)
    rw [← run_append] at hpast
    obtain rfl := Traffic.PastWaiting.key_eq hcall hpast
    exact ⟨first, leader, second ++ x :: late, by simp, ⟨start, none, hleads⟩,
      read_of_answer hanswer.symm⟩

end KeyedBlocks.SharedSite
