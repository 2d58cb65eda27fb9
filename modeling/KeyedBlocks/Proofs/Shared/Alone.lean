import KeyedBlocks.Blocks.Service
import KeyedBlocks.Proofs.Cache.OneGet
import KeyedBlocks.Proofs.Shared.Writes
import KeyedBlocks.Relational.Basic

/-!
A shared site that only one call uses at a time. Left alone, a write ends in the state and with the
result that the site reaches by the write at once, and so does a get; so a handle that has a site to
itself makes particular runs of the shared site.
-/
namespace KeyedBlocks.SharedSite

variable {β ω : Type} [Backend β ω]

theorem proceed_of_ended {s : SharedSite β ω} {i : Nat} {request : Request}
    {result : Except StoreError Unit} (h : s.writings[i]? = some ⟨request, .ended result⟩)
    (n : Nat) :
    s.run (List.replicate n (.proceed i)) = s := by
  induction n with
  | zero => rfl
  | succ n ih =>
    have hstep : s.step (.proceed i) = s := by
      simp only [step, proceed, h]
    rw [List.replicate_succ, run_cons, hstep]
    exact ih

/-- A write that nobody interferes with makes the rest of its plan. -/
theorem proceed_alone {s : SharedSite β ω} {i : Nat} {request : Request} {plan : List (Effect ω)}
    (h : s.writings[i]? = some ⟨request, .pending plan⟩) :
    (s.run (List.replicate (plan.length + 1) (.proceed i))).site = (s.site.run plan).1 ∧
      (s.run (List.replicate (plan.length + 1) (.proceed i))).writings[i]? =
        some ⟨request, .ended (s.site.run plan).2⟩ := by
  induction plan generalizing s with
  | nil =>
    have hstep : s.step (.proceed i) = s.setProgress i (.ended (.ok ())) := by
      simp only [step, proceed, h]
    show (s.step (.proceed i)).site = _ ∧ (s.step (.proceed i)).writings[i]? = _
    rw [hstep]
    exact ⟨rfl, setProgress_self h _⟩
  | cons effect rest ih =>
    rw [List.length_cons, List.replicate_succ, run_cons]
    cases effect with
    | forget a =>
      have hstep : s.step (.proceed i) =
          (s.follow (.invalidate a)).setProgress i (.pending rest) := by
        simp only [step, proceed, h]
      rw [hstep]
      have hnext : ((s.follow (.invalidate a)).setProgress i (.pending rest)).writings[i]? =
          some ⟨request, .pending rest⟩ := setProgress_self (s := s.follow (.invalidate a)) h _
      exact ih hnext
    | perform change =>
      have hstep : s.step (.proceed i) =
          { s with backend := (Backend.perform s.backend change).1 }.setProgress i
            (.goOn rest (Backend.perform s.backend change).2) := by
        simp only [step, proceed, h]
      have hnext := proceed_perform h
      have hproceed : s.proceed i = s.step (.proceed i) := rfl
      rw [hproceed] at hnext
      unfold Site.run runSteps
      simp only [Site.step, site]
      cases hresult : (Backend.perform s.backend change).2 with
      | ok value =>
        rw [hresult] at hnext
        have hrest := ih hnext
        rw [hstep] at hrest ⊢
        exact hrest
      | error e =>
        rw [hresult] at hnext
        rw [proceed_of_ended hnext]
        refine ⟨?_, hnext⟩
        rw [hstep]
        rfl

/-- A write that is alone from its beginning is the write at once. -/
theorem make_alone (s : SharedSite β ω) (request : Request) :
    ((s.beginWrite request).run
        (List.replicate ((request.plan β).length + 1) (.proceed s.writings.length))).site =
          (s.site.make request).1 ∧
      ((s.beginWrite request).run
        (List.replicate ((request.plan β).length + 1) (.proceed s.writings.length))).writings[
          s.writings.length]? = some ⟨request, .ended (s.site.make request).2⟩ := by
  have hbegun : (s.beginWrite request).writings[s.writings.length]? =
      some ⟨request, .pending (request.plan β)⟩ := by
    simp [beginWrite]
  exact proceed_alone hbegun

/-- Taking note of reads changes nothing else about a backend. -/
structure Counts (β : Type) {ω : Type} [Backend β ω] : Prop where
  nothing : ∀ backend : β, Backend.countReads backend 0 = backend
  read : ∀ (backend : β) n a, Backend.read (Backend.countReads backend n) a = Backend.read backend a

theorem counts_blockService : Counts BlockService where
  nothing _ := rfl
  read _ _ _ := rfl

theorem counts_relational : Counts Relational where
  nothing _ := rfl
  read _ _ _ := rfl

def Aligned (s : SharedSite β ω) : Prop := s.readings.length = s.traffic.calls.length

omit [Backend β ω] in
theorem calls_length_step (t : Traffic Address StoreError) {m : Move Address StoreError}
    (hget : ∀ a, m ≠ .get a) : (t.step m).calls.length = t.calls.length := by
  have hphase : ∀ (t : Traffic Address StoreError) id phase,
      (t.setPhase id phase).calls.length = t.calls.length := by
    intro t id phase
    exact List.length_modify ..
  cases m with
  | get a => exact absurd rfl (hget a)
  | invalidate | clear | advance => rfl
  | look id =>
    simp only [Traffic.step]
    split
    · split
      · exact hphase ..
      · exact hphase ..
      · rfl
    · rfl
  | expire =>
    simp only [Traffic.step]
    split
    · split
      · exact hphase ..
      · rfl
    · rfl
  | answer | settle | publish | close =>
    simp only [Traffic.step]
    split
    · exact hphase ..
    · rfl
  | cancel =>
    simp only [Traffic.step]
    split
    · exact hphase ..
    · exact hphase ..
    · rfl

theorem Aligned.step {s : SharedSite β ω} (h : s.Aligned) (x : Access) : (s.step x).Aligned := by
  cases x with
  | get handle key =>
    rcases located_cases s handle key (s.beginGet key.raw) with hsame | ⟨a, _, hbegin⟩
    · rwa [SharedSite.step, hsame]
    · rw [SharedSite.step, hbegin]
      show (s.readings ++ [_]).length = (s.traffic.calls ++ [_]).length
      rw [List.length_append, List.length_append, h]
      rfl
  | read call =>
    simp only [SharedSite.step, read]
    split
    · show (s.readings.set call _).length = _
      rw [List.length_set]
      exact h
    · exact h
  | reply call =>
    simp only [SharedSite.step, reply]
    split
    · exact h.trans (calls_length_step _ fun a heq => by cases heq).symm
    · exact h
  | move m =>
    cases m with
    | get | answer => exact h
    | expire | settle | publish | look | cancel | close | invalidate | clear | advance =>
      exact h.trans (calls_length_step _ fun a heq => by cases heq).symm
  | put handle key value =>
    rcases located_cases s handle key fun a => s.beginWrite (.put key.raw a value) with
      hsame | ⟨a, _, hbegin⟩
    · rwa [SharedSite.step, hsame]
    · rwa [SharedSite.step, hbegin]
  | delete handle key =>
    rcases located_cases s handle key fun a => s.beginWrite (.delete key.raw a) with
      hsame | ⟨a, _, hbegin⟩
    · rwa [SharedSite.step, hsame]
    · rwa [SharedSite.step, hbegin]
  | flush b => exact h
  | proceed i =>
    simp only [SharedSite.step, proceed]
    split <;> exact h
  | drop i =>
    simp only [SharedSite.step, drop]
    split <;> exact h

theorem Aligned.run {s : SharedSite β ω} (h : s.Aligned) (accesses : List Access) :
    (s.run accesses).Aligned := by
  induction accesses generalizing s with
  | nil => exact h
  | cons x rest ih => exact ih (h.step x)

def extend (s : SharedSite β ω) (backend : β) (cache : ReadCache Address) (now : Nat)
    (call : Call Address StoreError) (reading : Reading) : SharedSite β ω :=
  ⟨backend, ⟨cache, now, s.traffic.calls ++ [call]⟩, s.readings ++ [reading], s.writings⟩

section Extend

variable {s : SharedSite β ω} {backend : β} {cache : ReadCache Address} {now : Nat}
  {call : Call Address StoreError} {reading : Reading}

omit [Backend β ω] in
theorem extend_call? :
    (s.extend backend cache now call reading).traffic.call? s.traffic.calls.length =
      some call := by
  simp [extend, Traffic.call?]

omit [Backend β ω] in
theorem extend_setPhase (phase : Phase StoreError) :
    (s.extend backend cache now call reading).traffic.setPhase s.traffic.calls.length phase =
      (s.extend backend cache now ⟨call.key, phase⟩ reading).traffic := by
  have hmodify : ∀ calls : List (Call Address StoreError),
      (calls ++ [call]).modify calls.length (fun call => { call with phase }) =
        calls ++ [⟨call.key, phase⟩] := by
    intro calls
    induction calls with
    | nil => rfl
    | cons first calls ih => exact congrArg (first :: ·) ih
  unfold Traffic.setPhase extend
  rw [hmodify]

omit [Backend β ω] in
theorem extend_readings (haligned : s.Aligned) :
    (s.extend backend cache now call reading).readings[s.traffic.calls.length]? = some reading := by
  have hlength : s.readings.length = s.traffic.calls.length := haligned
  simp [extend, ← hlength]

variable {a : Address} {raw : Bytes} {since : Nat} {result : Except StoreError Bytes}

theorem extend_read (haligned : s.Aligned) :
    (s.extend backend cache now ⟨a, .leading since none⟩ ⟨raw, none⟩).step
        (.read s.traffic.calls.length) =
      s.extend backend cache now ⟨a, .leading since none⟩
        ⟨raw, some (Site.answer backend raw a)⟩ := by
  simp only [step, read, extend_readings haligned, extend_call?]
  have hlength : s.readings.length = s.traffic.calls.length := haligned
  simp [extend, ← hlength]

theorem extend_reply (haligned : s.Aligned) :
    (s.extend backend cache now ⟨a, .leading since none⟩ ⟨raw, some result⟩).step
        (.reply s.traffic.calls.length) =
      s.extend backend cache now ⟨a, .leading since (some result)⟩ ⟨raw, some result⟩ := by
  have hanswer : (s.extend backend cache now ⟨a, .leading since none⟩
      ⟨raw, some result⟩).traffic.step (.answer s.traffic.calls.length result) =
        (s.extend backend cache now ⟨a, .leading since (some result)⟩
          ⟨raw, some result⟩).traffic := by
    simp only [Traffic.step, extend_call?]
    exact extend_setPhase _
  simp only [step, reply, extend_readings haligned, follow, hanswer]
  rfl

variable (hcounts : Counts β)
include hcounts

/-- A move that starts no loader leaves the backend as it is. -/
theorem load_quiet {s : SharedSite β ω} {m : Move Address StoreError}
    (h : (s.traffic.step m).cache.stats.loads = s.traffic.cache.stats.loads) :
    s.load m = s.follow m := by
  have hloads : (s.traffic.step m).cache.stats.loads - s.traffic.cache.stats.loads = 0 := by
    omega
  simp only [load, follow, hloads, hcounts.nothing]

theorem extend_advance (ms : Nat) :
    (s.extend backend cache now call reading).step (.move (.advance ms)) =
      s.extend backend cache (now + ms) call reading := by
  show (s.extend backend cache now call reading).load (.advance ms) = _
  rw [load_quiet hcounts rfl]
  rfl

theorem extend_expire (htime : since + cache.config.fetchTimeoutMs ≤ now) :
    (s.extend backend cache now ⟨a, .leading since none⟩ reading).step
        (.move (.expire s.traffic.calls.length)) =
      s.extend backend cache now
        ⟨a, .leading since (some (.error (TimedOut.timedOut a cache.config.fetchTimeout)))⟩
        reading := by
  have hmove : (s.extend backend cache now ⟨a, .leading since none⟩ reading).traffic.step
      (.expire s.traffic.calls.length) = (s.extend backend cache now
        ⟨a, .leading since (some (.error (TimedOut.timedOut a cache.config.fetchTimeout)))⟩
        reading).traffic := by
    simp only [Traffic.step, extend_call?]
    rw [extend_setPhase]
    exact if_pos htime
  show (s.extend backend cache now ⟨a, .leading since none⟩ reading).load _ = _
  rw [load_quiet hcounts (by rw [hmove]; rfl)]
  unfold follow
  rw [hmove]
  rfl

/-- A leading get with an answer settles and then publishes it. -/
theorem extend_deliver :
    ((s.extend backend cache now ⟨a, .leading since (some result)⟩ reading).step
        (.move (.settle s.traffic.calls.length))).step (.move (.publish s.traffic.calls.length)) =
      s.extend backend (cache.settle now s.traffic.calls.length a result) now
        ⟨a, .returned result⟩ reading := by
  have hsettle : (s.extend backend cache now ⟨a, .leading since (some result)⟩
      reading).traffic.step (.settle s.traffic.calls.length) =
        (s.extend backend (cache.settle now s.traffic.calls.length a result) now
          ⟨a, .settled result⟩ reading).traffic := by
    simp only [Traffic.step, extend_call?]
    exact extend_setPhase (s := s) _
  have hpublish : (s.extend backend (cache.settle now s.traffic.calls.length a result) now
      ⟨a, .settled result⟩ reading).traffic.step (.publish s.traffic.calls.length) =
        (s.extend backend (cache.settle now s.traffic.calls.length a result) now
          ⟨a, .returned result⟩ reading).traffic := by
    simp only [Traffic.step, extend_call?]
    exact extend_setPhase _
  have hfirst : (s.extend backend cache now ⟨a, .leading since (some result)⟩ reading).step
      (.move (.settle s.traffic.calls.length)) =
        s.extend backend (cache.settle now s.traffic.calls.length a result) now
          ⟨a, .settled result⟩ reading := by
    show (s.extend backend cache now ⟨a, .leading since (some result)⟩ reading).load _ = _
    rw [load_quiet hcounts (by rw [hsettle]; exact ReadCache.settle_loads ..)]
    unfold follow
    rw [hsettle]
    rfl
  rw [hfirst]
  show (s.extend backend _ now ⟨a, .settled result⟩ reading).load _ = _
  rw [load_quiet hcounts (by rw [hpublish]; rfl)]
  unfold follow
  rw [hpublish]
  rfl

end Extend

theorem beginGet_hit (hcounts : Counts β) {s : SharedSite β ω} (raw : Bytes) {a : Address}
    {value : Bytes} (hpeek : s.traffic.cache.peek s.traffic.now a = some value) :
    s.beginGet raw a =
      s.extend s.backend (s.traffic.cache.consult s.traffic.now 0 true a).2 s.traffic.now
        ⟨a, .returned (.ok value)⟩ ⟨raw, none⟩ := by
  -- What a hit does to the cache does not depend on the number of the get.
  have hconsult : ∀ call, s.traffic.cache.consult s.traffic.now call true a =
      (.hit value, (s.traffic.cache.consult s.traffic.now 0 true a).2) := by
    intro call
    rw [ReadCache.consult_hit hpeek call, ReadCache.consult_hit hpeek 0]
  have hloads : (s.traffic.cache.consult s.traffic.now 0 true a).2.stats.loads =
      s.traffic.cache.stats.loads := by
    rw [ReadCache.consult_hit hpeek 0]
  have hbegin : s.traffic.step (.get a) =
      (s.extend s.backend (s.traffic.cache.consult s.traffic.now 0 true a).2 s.traffic.now
        ⟨a, .returned (.ok value)⟩ ⟨raw, none⟩).traffic := by
    show s.traffic.begin a = _
    unfold Traffic.begin
    rw [hconsult s.traffic.calls.length]
    rfl
  have hquiet : s.load (.get a) = s.follow (.get a) := by
    apply load_quiet hcounts
    rw [hbegin]
    exact hloads
  unfold beginGet
  rw [hquiet]
  unfold follow
  rw [hbegin]
  rfl

theorem beginGet_miss {s : SharedSite β ω} (raw : Bytes) {a : Address}
    (hpeek : s.traffic.cache.peek s.traffic.now a = none)
    (hfree : s.traffic.cache.leader? a = none) :
    s.beginGet raw a =
      s.extend (Backend.countReads s.backend 1)
        (s.traffic.cache.consult s.traffic.now s.traffic.calls.length true a).2 s.traffic.now
        ⟨a, .leading s.traffic.now none⟩ ⟨raw, none⟩ := by
  have hconsult := ReadCache.consult_lead hpeek hfree s.traffic.calls.length
  have hbegin : s.traffic.step (.get a) =
      (s.extend s.backend
        (s.traffic.cache.consult s.traffic.now s.traffic.calls.length true a).2 s.traffic.now
        ⟨a, .leading s.traffic.now none⟩ ⟨raw, none⟩).traffic := by
    show s.traffic.begin a = _
    unfold Traffic.begin
    rw [hconsult]
    rfl
  have hloads : (s.follow (.get a)).traffic.cache.stats.loads - s.traffic.cache.stats.loads =
      1 := by
    show (s.traffic.step (.get a)).cache.stats.loads - s.traffic.cache.stats.loads = 1
    rw [hbegin, hconsult]
    exact Nat.add_sub_cancel_left _ 1
  have hload : s.load (.get a) =
      { s.follow (.get a) with backend := Backend.countReads s.backend 1 } := by
    simp only [load, hloads]
  unfold beginGet
  rw [hload]
  unfold follow
  rw [hbegin]
  rfl

/-- A get that nobody interferes with is the get at once. -/
theorem get_alone (hcounts : Counts β) {s : SharedSite β ω} (raw : Bytes) {a : Address}
    (haligned : s.Aligned)
    (hfree : s.traffic.cache.leader? a = none) :
    ∃ accesses, ((s.beginGet raw a).run accesses).site = (s.site.get raw a).1 ∧
      ((s.beginGet raw a).run accesses).traffic.call? s.traffic.calls.length =
        some ⟨a, .returned (s.site.get raw a).2⟩ := by
  cases hpeek : s.traffic.cache.peek s.traffic.now a with
  | some value =>
    refine ⟨[], ?_⟩
    have hget := Site.get_hit (s := s.site) raw hpeek
    rw [hget, run_nil, beginGet_hit hcounts raw hpeek]
    refine ⟨?_, extend_call?⟩
    rw [hcounts.nothing]
    rfl
  | none =>
    have hget := Site.get_miss (s := s.site) raw hpeek hfree
    have hconfig : (s.traffic.cache.consult s.traffic.now s.traffic.calls.length true a).2.config =
        s.traffic.cache.config := ReadCache.consult_config ..
    have hanswer : Site.answer (Backend.countReads s.backend 1) raw a =
        Site.answer s.backend raw a := by
      unfold Site.answer
      rw [hcounts.read]
    have hsettle := fun later result => ReadCache.settle_consult (ε := StoreError) hpeek hfree
      s.traffic.calls.length later result
    rw [hget, beginGet_miss raw hpeek hfree]
    unfold Timeline.Loader.span Timeline.Loader.outcome
    by_cases htime : (s.site.loader raw a).wait ≤ s.site.cache.config.fetchTimeoutMs
    · rw [Nat.min_eq_left htime, if_pos htime]
      refine ⟨[.read s.traffic.calls.length, .move (.advance (s.site.loader raw a).wait),
        .reply s.traffic.calls.length, .move (.settle s.traffic.calls.length),
        .move (.publish s.traffic.calls.length)], ?_⟩
      simp only [run_cons, run_nil]
      rw [extend_read haligned, extend_advance hcounts, extend_reply haligned,
        extend_deliver hcounts, hsettle, hanswer]
      exact ⟨rfl, extend_call?⟩
    · have hlate : s.site.cache.config.fetchTimeoutMs ≤ (s.site.loader raw a).wait := by omega
      rw [Nat.min_eq_right hlate, if_neg htime]
      refine ⟨[.move (.advance s.site.cache.config.fetchTimeoutMs),
        .move (.expire s.traffic.calls.length), .move (.settle s.traffic.calls.length),
        .move (.publish s.traffic.calls.length)], ?_⟩
      have hexpired : s.traffic.now + (s.traffic.cache.consult s.traffic.now
          s.traffic.calls.length true a).2.config.fetchTimeoutMs ≤
            s.traffic.now + s.site.cache.config.fetchTimeoutMs := by
        rw [hconfig]
        exact Nat.le_refl _
      simp only [run_cons, run_nil]
      rw [extend_advance hcounts, extend_expire hcounts hexpired, extend_deliver hcounts, hsettle,
        hconfig]
      exact ⟨rfl, extend_call?⟩

/-- What a handle does that has the site to itself is a run of the shared site. -/
theorem handle_alone (hcounts : Counts β) {s : SharedSite β ω} (haligned : s.Aligned)
    (hidle : ∀ a, s.traffic.cache.leader? a = none) (h : Handle) (key : Key) (value : Bytes) :
    (∃ rest, (s.run (.get h key :: rest)).site = (h.get s.site key).1) ∧
      (∃ rest, (s.run (.put h key value :: rest)).site = (h.put s.site key value).1) ∧
      (∃ rest, (s.run (.delete h key :: rest)).site = (h.delete s.site key).1) := by
  simp only [run_cons, step, located, Handle.get, Handle.put, Handle.delete, Handle.located]
  cases h.scheme.derive key with
  | error e => exact ⟨⟨[], rfl⟩, ⟨[], rfl⟩, ⟨[], rfl⟩⟩
  | ok a =>
    obtain ⟨reads, hget, _⟩ := get_alone hcounts key.raw haligned (hidle a)
    exact ⟨⟨reads, hget⟩, ⟨_, (s.make_alone (.put key.raw a value)).1⟩,
      ⟨_, (s.make_alone (.delete key.raw a)).1⟩⟩

end KeyedBlocks.SharedSite
