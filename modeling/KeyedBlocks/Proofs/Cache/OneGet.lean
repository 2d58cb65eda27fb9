import KeyedBlocks.Backend
import KeyedBlocks.Proofs.Cache.Flights

/-!
A get that nobody interferes with. It is answered from a live entry at once, or it fetches: then its
loader answers within the time allowed, or the time runs out, and the fetch ends with that result.
-/
namespace KeyedBlocks

variable {κ ε : Type} [DecidableEq κ] [TimedOut κ ε]

namespace Traffic

theorem begin_hit {cache changed : ReadCache κ} {now : Nat} {key : κ} {value : Bytes}
    (hconsult : cache.consult now 0 true key = (.hit value, changed)) :
    (start cache now).step (.get key) =
      (⟨changed, now, [⟨key, .returned (.ok value)⟩]⟩ : Traffic κ ε) := by
  simp [step, begin, start, hconsult, Admission.phase]

theorem begin_lead {cache changed : ReadCache κ} {now : Nat} {key : κ}
    (hconsult : cache.consult now 0 true key = (.lead, changed)) :
    (start cache now).step (.get key) =
      (⟨changed, now, [⟨key, .leading now none⟩]⟩ : Traffic κ ε) := by
  simp [step, begin, start, hconsult, Admission.phase]

end Traffic

namespace Timeline

/-- What a fetch that nobody interferes with comes to. -/
def Loader.outcome (loader : Loader ε) (config : CacheConfig) (key : κ) : Except ε Bytes :=
  if loader.wait ≤ config.fetchTimeoutMs then loader.result
  else .error (TimedOut.timedOut key config.fetchTimeout)

def Loader.span (loader : Loader ε) (config : CacheConfig) : Nat :=
  min loader.wait config.fetchTimeoutMs

/-- A timetable of one event is played by starting the event and then taking one more task. -/
theorem play_one (cache : ReadCache κ) (now : Nat) (event : Event κ ε) :
    play cache now [(0, event)] =
      let last := ((⟨[event], .start cache now, [], [], []⟩ : Play κ ε).start 0).next
      ⟨last.traffic.cache, last.traffic.now, [match Assoc.find? 0 last.ended with
        | some (outcome, time) => (outcome, time - now)
        | none => (.cancelled, 0)]⟩ := by
  have hagenda : agendaOf now [0] = [(now, .start 0)] := by simp [agendaOf, enter]
  have hnext : (⟨[event], .start cache now, [(now, .start 0)], [], []⟩ : Play κ ε).next =
      (⟨[event], .start cache now, [], [], []⟩ : Play κ ε).start 0 := by
    simp [Play.next, Play.move, Traffic.run, Traffic.step, Traffic.start]
  simp only [play, List.map_cons, List.map_nil, hagenda, List.length_singleton, Play.run, hnext]
  rfl

theorem start_hit {cache changed : ReadCache κ} {now : Nat} {key : κ} {value : Bytes}
    (loader : Loader ε) (hconsult : cache.consult now 0 true key = (.hit value, changed)) :
    (⟨[.get key loader], .start cache now, [], [], []⟩ : Play κ ε).start 0 =
      ⟨[.get key loader], ⟨changed, now, [⟨key, .returned (.ok value)⟩]⟩, [], [(0, 0)],
        [(0, .got (.ok value), now)]⟩ := by
  have hbegin := Traffic.begin_hit (ε := ε) hconsult
  have hfirst : (Traffic.start (ε := ε) cache now).calls.length = 0 := rfl
  simp [Play.start, Play.move, Traffic.run, hfirst, hbegin, Play.attend, Traffic.call?,
    Play.conclude]

/-- A get that leads either has its answer at once or is due to end later. -/
theorem start_lead {cache changed : ReadCache κ} {now : Nat} {key : κ} {loader : Loader ε}
    (hconsult : cache.consult now 0 true key = (.lead, changed)) :
    (⟨[.get key loader], .start cache now, [], [], []⟩ : Play κ ε).start 0 =
      match loader.delay with
      | none =>
          ⟨[.get key loader], ⟨changed.settle now 0 key loader.result, now,
            [⟨key, .returned loader.result⟩]⟩, [], [(0, 0)], [(0, .got loader.result, now)]⟩
      | some _ =>
          ⟨[.get key loader], ⟨changed, now, [⟨key, .leading now none⟩]⟩,
            [(now + Loader.span loader changed.config, .finish 0)], [(0, 0)], []⟩ := by
  have hbegin := Traffic.begin_lead (ε := ε) hconsult
  have hfirst : (Traffic.start (ε := ε) cache now).calls.length = 0 := rfl
  have hevent : ([.get key loader] : List (Event κ ε))[0]? = some (.get key loader) := rfl
  simp only [Play.start, hevent, Play.move, Traffic.run, List.foldl_cons, List.foldl_nil, hfirst,
    hbegin, List.nil_append]
  cases hdelay : loader.delay with
  | none =>
    simp [Play.attend, Play.loader?, hdelay, Traffic.call?, Play.move, Play.deliver, Play.conclude,
      Traffic.run, Traffic.step, Traffic.setPhase]
  | some ms => simp [Play.attend, Play.loader?, hdelay, Traffic.call?, enter, Loader.span]

/-- The end of a fetch whose get is the only one. -/
theorem finish_alone {cache : ReadCache κ} {now : Nat} {key : κ} {loader : Loader ε} (since : Nat)
    (hnow : now = since + Loader.span loader cache.config) :
    (⟨[.get key loader], ⟨cache, now, [⟨key, .leading since none⟩]⟩, [], [(0, 0)], []⟩ :
        Play κ ε).finish 0 =
      ⟨[.get key loader],
        ⟨cache.settle now 0 key (Loader.outcome loader cache.config key), now,
          [⟨key, .returned (Loader.outcome loader cache.config key)⟩]⟩, [], [(0, 0)],
        [(0, .got (Loader.outcome loader cache.config key), now)]⟩ := by
  unfold Loader.span at hnow
  by_cases hwait : loader.wait ≤ cache.config.fetchTimeoutMs
  · simp [Play.finish, Play.loader?, Assoc.find?, Play.move, Play.deliver, Play.conclude, Play.wake,
      Play.waitsFor, Loader.outcome, hwait, Traffic.run, Traffic.step, Traffic.call?,
      Traffic.setPhase]
  · have htime : since + cache.config.fetchTimeoutMs ≤ now := by omega
    simp [Play.finish, Play.loader?, Assoc.find?, Play.move, Play.deliver, Play.conclude, Play.wake,
      Play.waitsFor, Loader.outcome, hwait, Traffic.run, Traffic.step, Traffic.call?,
      Traffic.setPhase, Traffic.deadline, htime]

theorem play_get_hit {cache : ReadCache κ} {now : Nat} {key : κ} {value : Bytes}
    (loader : Loader ε) (hpeek : cache.peek now key = some value) :
    play cache now [(0, .get key loader)] =
      ⟨(cache.consult now 0 true key).2, now, [(.got (.ok value), 0)]⟩ := by
  have hconsult := ReadCache.consult_hit hpeek 0
  rw [play_one, start_hit loader hconsult, hconsult]
  simp [Play.next, Assoc.find?]

theorem play_get_miss {cache : ReadCache κ} {now : Nat} {key : κ} (loader : Loader ε)
    (hpeek : cache.peek now key = none) (hfree : cache.leader? key = none) :
    play cache now [(0, .get key loader)] =
      ⟨(cache.consult now 0 true key).2.settle (now + Loader.span loader cache.config) 0 key
          (Loader.outcome loader cache.config key),
        now + Loader.span loader cache.config,
        [(.got (Loader.outcome loader cache.config key), Loader.span loader cache.config)]⟩ := by
  have hconsult := ReadCache.consult_lead hpeek hfree 0
  rw [play_one, start_lead hconsult, hconsult]
  cases hdelay : loader.delay with
  | none =>
    have hspan : Loader.span loader cache.config = 0 := by
      simp [Loader.span, Loader.wait, hdelay]
    have houtcome : Loader.outcome loader cache.config key = loader.result := by
      simp [Loader.outcome, Loader.wait, hdelay]
    simp [Play.next, Assoc.find?, hspan, houtcome]
  | some ms =>
    simp only [Play.next, Play.move, Traffic.run, List.foldl_cons, List.foldl_nil, Traffic.step]
    rw [finish_alone now (by simp only; omega)]
    simp [Assoc.find?]

end Timeline

namespace ReadCache

omit [TimedOut κ ε]

/-- How a fetch ends does not depend on the number of the get that leads it. -/
theorem settle_consult {c : ReadCache κ} {now : Nat} {key : κ} (hpeek : c.peek now key = none)
    (hfree : c.leader? key = none) (call later : Nat) (result : Except ε Bytes) :
    (c.consult now call true key).2.settle later call key result =
      (c.consult now 0 true key).2.settle later 0 key result := by
  rw [consult_lead hpeek hfree call, consult_lead hpeek hfree 0]
  have herase : ∀ leader : CallId, Assoc.erase key (Assoc.insert key leader c.inflight) =
      Assoc.erase key c.inflight := by
    intro leader
    simp [Assoc.insert, Assoc.erase]
  cases result <;> simp [settle, withdraw, ReadCache.leader?, herase]

def Idle (c : ReadCache κ) : Prop := c.inflight = []

theorem Idle.leader? {c : ReadCache κ} (h : c.Idle) (key : κ) : c.leader? key = none := by
  unfold ReadCache.leader?
  rw [h]
  rfl

theorem Idle.hit {c : ReadCache κ} (h : c.Idle) {now : Nat} {key : κ} {value : Bytes}
    (hpeek : c.peek now key = some value) : (c.consult now 0 true key).2.Idle := by
  rw [consult_hit hpeek]
  exact h

/-- A get that fetches alone takes its registration back. -/
theorem Idle.miss {c : ReadCache κ} (h : c.Idle) {now : Nat} {key : κ} (later : Nat)
    (result : Except ε Bytes) (hpeek : c.peek now key = none) :
    ((c.consult now 0 true key).2.settle later 0 key result).Idle := by
  show (ReadCache.settle ..).inflight = []
  rw [settle_inflight, withdraw_inflight, consult_lead hpeek (h.leader? key), h]
  simp [ReadCache.leader?, Assoc.insert, Assoc.erase, Assoc.find?]

end ReadCache

namespace Site

variable {β ω : Type} [Backend β ω]

def loader (s : Site β) (raw : Bytes) (a : Address) : Loader StoreError :=
  ⟨Backend.readDelay s.backend, answer s.backend raw a⟩

theorem get_hit {s : Site β} (raw : Bytes) {a : Address} {value : Bytes}
    (hpeek : s.cache.peek s.now a = some value) :
    s.get raw a =
      (⟨Backend.countReads s.backend 0, (s.cache.consult s.now 0 true a).2, s.now⟩, .ok value) := by
  have hplay := Timeline.play_get_hit (s.loader raw a) hpeek
  have hloads : (s.cache.consult s.now 0 true a).2.stats.loads = s.cache.stats.loads := by
    rw [ReadCache.consult_hit hpeek]
  unfold loader at hplay
  simp [get, getAll, hplay, hloads]

theorem get_miss {s : Site β} (raw : Bytes) {a : Address} (hpeek : s.cache.peek s.now a = none)
    (hfree : s.cache.leader? a = none) :
    s.get raw a =
      (⟨Backend.countReads s.backend 1,
        (s.cache.consult s.now 0 true a).2.settle
          (s.now + Timeline.Loader.span (s.loader raw a) s.cache.config) 0 a
          (Timeline.Loader.outcome (s.loader raw a) s.cache.config a),
        s.now + Timeline.Loader.span (s.loader raw a) s.cache.config⟩,
        Timeline.Loader.outcome (s.loader raw a) s.cache.config a) := by
  have hplay := Timeline.play_get_miss (s.loader raw a) hpeek hfree
  have hloads : (s.cache.consult s.now 0 true a).2.stats.loads = s.cache.stats.loads + 1 := by
    rw [ReadCache.consult_lead hpeek hfree]
  unfold loader at hplay ⊢
  simp [get, getAll, hplay, hloads]

end Site

end KeyedBlocks
