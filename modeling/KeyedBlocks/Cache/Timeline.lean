import KeyedBlocks.Cache.Traffic

/-!
Timetables of cache use, played on a clock that moves only when nothing is left to do at the
present moment. A timetable fixes when each event begins and how long each loader takes; playing it
is one particular run of the traffic machine. Of two things due at one time the one entered first
comes first.
-/
namespace KeyedBlocks

/-- What a get would fetch, and how long that takes; without a delay the answer is there at once. -/
structure Loader (ε : Type) where
  delay : Option Nat
  result : Except ε Bytes

def Loader.wait {ε : Type} (loader : Loader ε) : Nat :=
  min (loader.delay.getD 0) Duration.longestWait

inductive Event (κ ε : Type)
  | get (key : κ) (loader : Loader ε)
  | peek (key : κ)
  | invalidate (key : κ)
  | clear
  /-- See the cache as it is. -/
  | inspect
  /-- Cancel another event, by its position in the timetable. -/
  | cancel (event : Nat)

inductive Outcome (κ ε : Type)
  | got (result : Except ε Bytes)
  | peeked (value : Option Bytes)
  | done
  | seen (cache : ReadCache κ)
  | cancelled

namespace Timeline

/-- What falls due at a time: an event begins, or the fetch of an event ends. -/
inductive Task
  | start (event : Nat)
  | finish (event : Nat)
  deriving DecidableEq

def Task.event : Task → Nat
  | start event => event
  | finish event => event

structure Play (κ ε : Type) where
  events : List (Event κ ε)
  traffic : Traffic κ ε
  /-- What is due, earliest first. -/
  agenda : List (Nat × Task)
  /-- The gets begun so far, with the events that began them. -/
  calls : List (Nat × CallId)
  /-- The events that are over, with their outcomes and the times at which they ended. -/
  ended : List (Nat × Outcome κ ε × Nat)

/-- Enter a task behind all that is due no later. -/
def enter (time : Nat) (task : Task) : List (Nat × Task) → List (Nat × Task)
  | [] => [(time, task)]
  | (t, other) :: rest =>
      if t ≤ time then (t, other) :: enter time task rest
      else (time, task) :: (t, other) :: rest

variable {κ ε : Type} [DecidableEq κ] [TimedOut κ ε]

namespace Play

def move (p : Play κ ε) (moves : List (Move κ ε)) : Play κ ε :=
  { p with traffic := p.traffic.run moves }

def conclude (p : Play κ ε) (event : Nat) (outcome : Outcome κ ε) : Play κ ε :=
  { p with ended := p.ended ++ [(event, outcome, p.traffic.now)] }

def isOver (p : Play κ ε) (event : Nat) : Bool := Assoc.contains event p.ended

def loader? (p : Play κ ε) (event : Nat) : Option (Loader ε) :=
  match p.events[event]? with
  | some (.get _ loader) => some loader
  | _ => none

/-- A leading get has its answer: its fetch ends and its event is over. -/
def deliver (p : Play κ ε) (event : Nat) (call : CallId) : Play κ ε :=
  let p := p.move [.settle call, .publish call]
  match p.traffic.call? call with
  | some ⟨_, .returned result⟩ => p.conclude event (.got result)
  | _ => p

/-- See to a get that has just looked its key up or looked at the fetch that it waits for. -/
def attend (p : Play κ ε) (event : Nat) (call : CallId) : Play κ ε :=
  match p.loader? event, p.traffic.call? call with
  | _, some ⟨_, .returned result⟩ => p.conclude event (.got result)
  | some loader, some ⟨_, .leading _ none⟩ =>
      match loader.delay with
      | none => (p.move [.answer call loader.result]).deliver event call
      | some _ =>
          let wait := min loader.wait p.traffic.cache.config.fetchTimeoutMs
          { p with agenda := enter (p.traffic.now + wait) (.finish event) p.agenda }
  | _, _ => p

def waitsFor (p : Play κ ε) (leader call : CallId) : Bool :=
  match p.traffic.call? call with
  | some ⟨_, .waiting other⟩ => other = leader
  | _ => false

/-- Let all gets that wait for `leader` look at its fetch. -/
def wake (p : Play κ ε) (leader : CallId) : Play κ ε :=
  p.calls.foldl
    (fun p entry =>
      if p.waitsFor leader entry.2 then (p.move [.look entry.2]).attend entry.1 entry.2 else p)
    p

def finish (p : Play κ ε) (event : Nat) : Play κ ε :=
  match p.loader? event, Assoc.find? event p.calls with
  | some loader, some call =>
      let inTime := loader.wait ≤ p.traffic.cache.config.fetchTimeoutMs
      let p := p.move [if inTime then .answer call loader.result else .expire call]
      (p.deliver event call).wake call
  | _, _ => p

/-- Drop an event that is not over; one that has not begun will not begin. -/
def cancel (p : Play κ ε) (event : Nat) : Play κ ε :=
  if p.isOver event then p
  else
    let p := { p with agenda := p.agenda.filter (·.2.event ≠ event) }
    match Assoc.find? event p.calls with
    | some call => ((p.move [.cancel call, .close call]).conclude event .cancelled).wake call
    | none => p.conclude event .cancelled

def start (p : Play κ ε) (event : Nat) : Play κ ε :=
  match p.events[event]? with
  | some (.get key _) =>
      let call := p.traffic.calls.length
      let p := p.move [.get key]
      { p with calls := p.calls ++ [(event, call)] }.attend event call
  | some (.peek key) => p.conclude event (.peeked (p.traffic.cache.peek p.traffic.now key))
  | some (.invalidate key) => (p.move [.invalidate key]).conclude event .done
  | some .clear => (p.move [.clear]).conclude event .done
  | some .inspect => p.conclude event (.seen p.traffic.cache)
  | some (.cancel other) => (p.cancel other).conclude event .done
  | none => p

def next (p : Play κ ε) : Play κ ε :=
  match p.agenda with
  | [] => p
  | (time, task) :: rest =>
      let p := p.move [.advance (time - p.traffic.now)]
      let p := { p with agenda := rest }
      match task with
      | .start event => p.start event
      | .finish event => p.finish event

def run : Nat → Play κ ε → Play κ ε
  | 0, p => p
  | fuel + 1, p => run fuel p.next

end Play

def agendaOf (now : Nat) (times : List Nat) : List (Nat × Task) :=
  (times.zipIdx).foldl
    (fun agenda entry => enter (now + min entry.1 Duration.longestWait) (.start entry.2) agenda) []

/-- What playing a timetable leaves: the cache, the time, and for each event its outcome and how
long after the beginning it was over. -/
structure Result (κ ε : Type) where
  cache : ReadCache κ
  now : Nat
  outcomes : List (Outcome κ ε × Nat)

/-- Play a timetable to its end. Every event begins once and fetches at most once, so two tasks for
each of them are enough. -/
def play (cache : ReadCache κ) (now : Nat) (timetable : List (Nat × Event κ ε)) : Result κ ε :=
  let first : Play κ ε :=
    ⟨timetable.map Prod.snd, .start cache now, agendaOf now (timetable.map Prod.fst), [], []⟩
  let last := first.run (2 * timetable.length)
  { cache := last.traffic.cache
    now := last.traffic.now
    outcomes := (List.range timetable.length).map fun event =>
      match Assoc.find? event last.ended with
      | some (outcome, time) => (outcome, time - now)
      | none => (.cancelled, 0) }

end Timeline

end KeyedBlocks
