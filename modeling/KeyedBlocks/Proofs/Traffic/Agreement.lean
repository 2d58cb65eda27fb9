import KeyedBlocks.Proofs.Traffic.Provenance

/-!
Everybody who waits for a fetch gets its result. Once the leader of a fetch has come to a result,
registered or not, each get that waits for it returns just that result or is cancelled itself. A
get goes back to the cache only after its leader was cancelled, and then it is served, waits for the
fetch that is registered by then, or leads the next one. So whoever was not cancelled can come to a
result with nobody's help.
-/
namespace KeyedBlocks

/-- The get was cancelled, or is about to have been. -/
def Phase.isGone {ε : Type} : Phase ε → Bool
  | .withdrawn | .cancelled => true
  | _ => false

/-- A move that needs no caller and no loader: gets go on by themselves, and time passes. -/
def Move.isUnaided {κ ε : Type} : Move κ ε → Bool
  | .expire _ | .settle _ | .publish _ | .look _ | .close _ | .advance _ => true
  | .get _ | .answer .. | .cancel _ | .invalidate _ | .clear => false

namespace Traffic

variable {κ ε : Type}

/-- The fetch that a get led is over, and its waiters can have the result now or soon. -/
def Concluded (t : Traffic κ ε) (id : CallId) (key : κ) (result : Except ε Bytes) : Prop :=
  t.call? id = some ⟨key, .settled result⟩ ∨ t.call? id = some ⟨key, .returned result⟩

/-- The moves by which a get that leads comes to its end, alone or by the passing of time. -/
inductive Finishes (leader : CallId) : Move κ ε → Prop
  | expire : Finishes leader (.expire leader)
  | settle : Finishes leader (.settle leader)
  | publish : Finishes leader (.publish leader)
  | close : Finishes leader (.close leader)
  | advance (ms : Nat) : Finishes leader (.advance ms)

theorem Finishes.isUnaided {m : Move κ ε} {leader : CallId} (h : Finishes leader m) :
    m.isUnaided = true := by
  cases h <;> rfl

variable [DecidableEq κ] [TimedOut κ ε]

/-- A get was cancelled while it was running its loader for a key. -/
def Abandoned (t : Traffic κ ε) (moves : List (Move κ ε)) (id : CallId) (key : κ) : Prop :=
  ∃ before after, moves = before ++ .cancel id :: after ∧ (t.run before).LeadsFor id key

theorem Abandoned.append {t : Traffic κ ε} {moves : List (Move κ ε)} {id : CallId} {key : κ}
    (h : t.Abandoned moves id key) (more : List (Move κ ε)) :
    t.Abandoned (moves ++ more) id key := by
  obtain ⟨before, after, rfl, hleads⟩ := h
  exact ⟨before, after ++ more, by simp, hleads⟩

/-- A get that is over changes no more. -/
theorem over_step {t : Traffic κ ε} {id : CallId} {key : κ} {phase : Phase ε} (m : Move κ ε)
    (hcall : t.call? id = some ⟨key, phase⟩) (hover : phase.isOver = true) :
    (t.step m).call? id = some ⟨key, phase⟩ := by
  by_cases hactor : t.actor? m = some id
  · cases step_turn t m with
    | idle hsame => rwa [hsame]
    | hit hasks _ _ | attach hasks _ _ _ | lead hasks _ _ _ =>
      obtain rfl := hasks.eq_of_actor hactor
      have hwaiting : phase.isWaiting = false := by
        cases phase <;> first | rfl | cases hover
      exact absurd ⟨phase, hcall, hwaiting⟩ hasks.not_pastWaiting
    | answer hold _ | expire hold _ _ | settle hold _ | publish hold _ | receive hold _ _
    | withdraw hold _ | leave hold _ | close hold _ =>
      cases hactor
      cases hcall.symm.trans hold
      cases hover
    | invalidate | clear | advance => cases hactor
  · exact (call?_step_of_ne hactor).trans hcall

theorem over_run {t : Traffic κ ε} {id : CallId} {key : κ} {phase : Phase ε}
    (moves : List (Move κ ε)) (hcall : t.call? id = some ⟨key, phase⟩)
    (hover : phase.isOver = true) : (t.run moves).call? id = some ⟨key, phase⟩ := by
  induction moves generalizing t with
  | nil => exact hcall
  | cons m rest ih => exact ih (over_step m hcall hover)

/-- A get whose fetch has come to a result keeps it or is cancelled; one that is gone stays so. -/
theorem outcome_step {t : Traffic κ ε} {id : CallId} {key : κ} {phase : Phase ε} (m : Move κ ε)
    (hcall : t.call? id = some ⟨key, phase⟩)
    (hphase : phase.isGone = true ∨ phase.result?.isSome = true) :
    ∃ next, (t.step m).call? id = some ⟨key, next⟩ ∧
      (next.isGone = true ∨ (phase.isGone = false ∧ next.result? = phase.result?)) := by
  have hkept : phase.isGone = true ∨ (phase.isGone = false ∧ phase.result? = phase.result?) := by
    cases phase.isGone <;> simp
  by_cases hactor : t.actor? m = some id
  · cases step_turn t m with
    | idle hsame =>
      rw [hsame]
      exact ⟨phase, hcall, hkept⟩
    | hit hasks _ _ | attach hasks _ _ _ | lead hasks _ _ _ =>
      obtain rfl := hasks.eq_of_actor hactor
      have hwaiting : phase.isWaiting = false := by
        cases phase <;> first | rfl | simp [Phase.result?, Phase.isGone] at hphase
      exact absurd ⟨phase, hcall, hwaiting⟩ hasks.not_pastWaiting
    | settle hold hbecame | publish hold hbecame =>
      cases hactor
      cases hcall.symm.trans hold
      exact ⟨_, hbecame.self, Or.inr ⟨rfl, rfl⟩⟩
    | withdraw hold hbecame | close hold hbecame =>
      cases hactor
      cases hcall.symm.trans hold
      exact ⟨_, hbecame.self, Or.inl rfl⟩
    | answer hold _ | expire hold _ _ | receive hold _ _ | leave hold _ =>
      cases hactor
      cases hcall.symm.trans hold
      simp [Phase.result?, Phase.isGone] at hphase
    | invalidate | clear | advance => cases hactor
  · exact ⟨phase, (call?_step_of_ne hactor).trans hcall, hkept⟩

theorem outcome_run {t : Traffic κ ε} {id : CallId} {key : κ} {phase : Phase ε}
    (moves : List (Move κ ε)) (hcall : t.call? id = some ⟨key, phase⟩)
    (hphase : phase.isGone = true ∨ phase.result?.isSome = true) :
    ∃ last, (t.run moves).call? id = some ⟨key, last⟩ ∧
      (last.isGone = true ∨ (phase.isGone = false ∧ last.result? = phase.result?)) := by
  induction moves generalizing t phase with
  | nil => exact ⟨phase, hcall, by cases phase.isGone <;> simp⟩
  | cons m rest ih =>
    obtain ⟨next, hnext, hgone | ⟨hthere, hresult⟩⟩ := outcome_step m hcall hphase
    · obtain ⟨last, hlast, hends | ⟨hback, _⟩⟩ := ih hnext (Or.inl hgone)
      · exact ⟨last, hlast, Or.inl hends⟩
      · cases hgone.symm.trans hback
    · have hsome : phase.result?.isSome = true := hphase.resolve_left (by simp [hthere])
      obtain ⟨last, hlast, hends | ⟨_, hsame⟩⟩ := ih hnext (Or.inr (hresult ▸ hsome))
      · exact ⟨last, hlast, Or.inl hends⟩
      · exact ⟨last, hlast, Or.inr ⟨hthere, hsame.trans hresult⟩⟩

theorem gone_of_cancel {t : Traffic κ ε} {id : CallId} {key : κ}
    (h : t.LeadsFor id key ∨ ∃ leader, t.call? id = some ⟨key, .waiting leader⟩) :
    ∃ phase, (t.step (.cancel id)).call? id = some ⟨key, phase⟩ ∧ phase.isGone = true := by
  rcases h with ⟨since, answer, hleads⟩ | ⟨leader, hwait⟩
  · refine ⟨.withdrawn, ?_, rfl⟩
    simp only [step, hleads]
    exact (became_setPhase hleads _ _).self
  · refine ⟨.cancelled, ?_, rfl⟩
    simp only [step, hwait]
    exact (became_setPhase hwait _ t.cache).self

theorem concluded_step {t : Traffic κ ε} {id : CallId} {key : κ} {result : Except ε Bytes}
    (m : Move κ ε) (h : t.Concluded id key result) : (t.step m).Concluded id key result := by
  rcases h with hsettled | hreturned
  · by_cases hactor : t.actor? m = some id
    · cases step_turn t m with
      | idle hsame =>
        rw [hsame]
        exact Or.inl hsettled
      | publish hold hbecame =>
        cases hactor
        cases hsettled.symm.trans hold
        exact Or.inr hbecame.self
      | hit hasks _ _ | attach hasks _ _ _ | lead hasks _ _ _ =>
        obtain rfl := hasks.eq_of_actor hactor
        exact absurd ⟨_, hsettled, rfl⟩ hasks.not_pastWaiting
      | answer hold _ | expire hold _ _ | settle hold _ | receive hold _ _ | withdraw hold _
      | leave hold _ | close hold _ =>
        cases hactor
        cases hsettled.symm.trans hold
      | invalidate | clear | advance => cases hactor
    · exact Or.inl ((call?_step_of_ne hactor).trans hsettled)
  · exact Or.inr (over_step m hreturned rfl)

theorem concluded_run {t : Traffic κ ε} {id : CallId} {key : κ} {result : Except ε Bytes}
    (moves : List (Move κ ε)) (h : t.Concluded id key result) :
    (t.run moves).Concluded id key result := by
  induction moves generalizing t with
  | nil => exact h
  | cons m rest ih => exact ih (concluded_step m h)

/-- A waiting get stays so until it is cancelled, receives the result of its leader, or asks again
because its leader was cancelled. -/
theorem waiting_step {t : Traffic κ ε} {m : Move κ ε} {id leader : CallId} {key : κ}
    (hwait : t.call? id = some ⟨key, .waiting leader⟩) :
    (t.step m).call? id = some ⟨key, .waiting leader⟩ ∨
      (m = .cancel id ∧ (t.step m).call? id = some ⟨key, .cancelled⟩) ∨
      (∃ result other, t.call? leader = some ⟨other, .returned result⟩ ∧
        (t.step m).call? id = some ⟨key, .returned result⟩) ∨
      (t.Asks m id key false ∧ ∃ other, t.call? leader = some ⟨other, .cancelled⟩) := by
  by_cases hactor : t.actor? m = some id
  · have hasked : ∀ {other k first}, t.Asks m other k first → other = id →
        t.Asks m id key false ∧ ∃ other, t.call? leader = some ⟨other, .cancelled⟩ := by
      intro other k first hasks heq
      subst heq
      cases hasks with
      | first => simp [call?] at hwait
      | again hcall hleader =>
        cases hwait.symm.trans hcall
        exact ⟨.again hcall hleader, _, hleader⟩
    cases step_turn t m with
    | idle hsame =>
      rw [hsame]
      exact Or.inl hwait
    | hit hasks | attach hasks | lead hasks =>
      have heq := hasks.eq_of_actor hactor
      exact Or.inr (Or.inr (Or.inr (hasked hasks heq)))
    | receive hold hleader hbecame =>
      cases hactor
      cases hwait.symm.trans hold
      exact Or.inr (Or.inr (Or.inl ⟨_, _, hleader, hbecame.self⟩))
    | leave hold hbecame =>
      cases hactor
      cases hwait.symm.trans hold
      exact Or.inr (Or.inl ⟨rfl, hbecame.self⟩)
    | answer hold _ | expire hold _ _ | settle hold _ | publish hold _ | withdraw hold _
    | close hold _ =>
      cases hactor
      cases hwait.symm.trans hold
    | invalidate | clear | advance => cases hactor
  · exact Or.inl ((call?_step_of_ne hactor).trans hwait)

/-- Whoever waits for a fetch that is over returns its result, unless it is cancelled itself. -/
theorem follows_run {t : Traffic κ ε} {moves : List (Move κ ε)} {id leader : CallId}
    {key other : κ} {result : Except ε Bytes} (hdone : t.Concluded leader other result)
    (hwait : t.call? id = some ⟨key, .waiting leader⟩) :
    (t.run moves).call? id = some ⟨key, .waiting leader⟩ ∨
      (t.run moves).call? id = some ⟨key, .returned result⟩ ∨
      (.cancel id ∈ moves ∧ (t.run moves).call? id = some ⟨key, .cancelled⟩) := by
  induction moves using List.reverseRecOn with
  | nil => exact Or.inl hwait
  | append_singleton moves m ih =>
    rw [run_append]
    rcases ih with hstill | hreturned | ⟨hmem, hcancelled⟩
    · have hleader := concluded_run moves hdone
      rcases waiting_step (m := m) hstill with
        hkeep | ⟨rfl, hcancelled⟩ | ⟨r, k, hreturned, hreceived⟩ | ⟨_, k, hcancelled⟩
      · exact Or.inl hkeep
      · exact Or.inr (Or.inr ⟨by simp, hcancelled⟩)
      · rcases hleader with hsettled | hsame
        · cases hsettled.symm.trans hreturned
        · cases hsame.symm.trans hreturned
          exact Or.inr (Or.inl hreceived)
      · rcases hleader with hsettled | hsame
        · cases hsettled.symm.trans hcancelled
        · cases hsame.symm.trans hcancelled
    · exact Or.inr (Or.inl (over_step m hreturned rfl))
    · exact Or.inr (Or.inr ⟨List.mem_append_left _ hmem, over_step m hcancelled rfl⟩)

theorem abandoned_of_step {t : Traffic κ ε} {m : Move κ ε} {id : CallId} {key other : κ}
    {phase : Phase ε} (hpast : t.PastWaiting id other)
    (hcall : (t.step m).call? id = some ⟨key, phase⟩) (hgone : phase.isGone = true) :
    (∃ old, t.call? id = some ⟨key, old⟩ ∧ old.isGone = true) ∨
      (m = .cancel id ∧ t.LeadsFor id key) := by
  by_cases hactor : t.actor? m = some id
  · cases step_turn t m with
    | idle hsame => exact Or.inl ⟨phase, hsame ▸ hcall, hgone⟩
    | hit hasks | attach hasks | lead hasks =>
      obtain rfl := hasks.eq_of_actor hactor
      exact absurd hpast hasks.not_pastWaiting
    | withdraw hold hbecame =>
      cases hactor
      cases hbecame.self.symm.trans hcall
      exact Or.inr ⟨rfl, _, _, hold⟩
    | leave hold hbecame =>
      cases hactor
      obtain ⟨old, hsame, hphase⟩ := hpast
      cases hsame.symm.trans hold
      cases hphase
    | close hold hbecame =>
      cases hactor
      cases hbecame.self.symm.trans hcall
      exact Or.inl ⟨_, hold, rfl⟩
    | answer _ hbecame | expire _ _ hbecame | settle _ hbecame | publish _ hbecame
    | receive _ _ hbecame =>
      cases hactor
      cases hbecame.self.symm.trans hcall
      cases hgone
    | invalidate | clear | advance => cases hactor
  · exact Or.inl ⟨phase, (call?_step_of_ne hactor).symm.trans hcall, hgone⟩

/-- A get that led and is gone was cancelled while it was running its loader. -/
theorem abandoned_of_gone {t : Traffic κ ε} {moves : List (Move κ ε)} {id : CallId} {key : κ}
    {phase : Phase ε} (hstarted : id ∈ t.loaderStarts moves)
    (hcall : (t.run moves).call? id = some ⟨key, phase⟩) (hgone : phase.isGone = true) :
    t.Abandoned moves id key := by
  induction moves using List.reverseRecOn generalizing phase with
  | nil => exact absurd hstarted List.not_mem_nil
  | append_singleton moves m ih =>
    rw [run_append] at hcall
    rcases mem_loaderStarts_concat.1 hstarted with hold | hstart
    · obtain ⟨other, hpast⟩ := pastWaiting_of_mem_loaderStarts hold
      rcases abandoned_of_step hpast hcall hgone with ⟨old, hbefore, hsame⟩ | ⟨rfl, hleads⟩
      · exact (ih hold hbefore hsame).append [m]
      · exact ⟨moves, [], rfl, hleads⟩
    · obtain ⟨_, _, _, _, _, hbecame⟩ := turn_of_loaderStart hstart
      cases hbecame.self.symm.trans hcall
      cases hgone

/-- A get that leads ends as `call` with nobody's help. -/
def EndsAs (t : Traffic κ ε) (leader : CallId) (call : Call κ ε) : Prop :=
  ∃ rest, (∀ m ∈ rest, Finishes leader m) ∧ (t.run rest).call? leader = some call

theorem EndsAs.step {t : Traffic κ ε} {m : Move κ ε} {leader : CallId} {call : Call κ ε}
    (hm : Finishes leader m) (h : (t.step m).EndsAs leader call) : t.EndsAs leader call := by
  obtain ⟨rest, hrest, hend⟩ := h
  exact ⟨m :: rest, List.forall_mem_cons.2 ⟨hm, hrest⟩, hend⟩

theorem endsAs_self {t : Traffic κ ε} {leader : CallId} {call : Call κ ε}
    (hleader : t.call? leader = some call) : t.EndsAs leader call :=
  ⟨[], List.forall_mem_nil _, hleader⟩

theorem endsAs_of_settled {t : Traffic κ ε} {leader : CallId} {key : κ} {result : Except ε Bytes}
    (hleader : t.call? leader = some ⟨key, .settled result⟩) :
    t.EndsAs leader ⟨key, .returned result⟩ := by
  have hreturned : (t.step (.publish leader)).call? leader = some ⟨key, .returned result⟩ := by
    simp only [step, hleader]
    exact (became_setPhase hleader _ t.cache).self
  exact (endsAs_self hreturned).step .publish

theorem endsAs_of_answered {t : Traffic κ ε} {leader : CallId} {key : κ} {since : Nat}
    {result : Except ε Bytes}
    (hleader : t.call? leader = some ⟨key, .leading since (some result)⟩) :
    t.EndsAs leader ⟨key, .returned result⟩ := by
  have hsettled : (t.step (.settle leader)).call? leader = some ⟨key, .settled result⟩ := by
    simp only [step, hleader]
    exact (became_setPhase hleader _ _).self
  exact (endsAs_of_settled hsettled).step .settle

/-- A loader that gives no answer is brought to its end by the time. -/
theorem endsAs_of_running {t : Traffic κ ε} {leader : CallId} {key : κ} {since : Nat}
    (hleader : t.call? leader = some ⟨key, .leading since none⟩) :
    ∃ result, t.EndsAs leader ⟨key, .returned result⟩ := by
  let late := t.step (.advance (t.deadline since))
  have htime : late.deadline since ≤ late.now := Nat.le_add_left ..
  have hrunning : late.call? leader = some ⟨key, .leading since none⟩ := hleader
  have hexpired : (late.step (.expire leader)).call? leader = some ⟨key, .leading since
      (some (.error (TimedOut.timedOut key late.cache.config.fetchTimeout)))⟩ := by
    simp only [step, hrunning, if_pos htime]
    exact (became_setPhase hrunning _ late.cache).self
  exact ⟨_, ((endsAs_of_answered hexpired).step .expire).step (.advance _)⟩

theorem LeadsFor.endsAs {t : Traffic κ ε} {leader : CallId} {key : κ} (h : t.LeadsFor leader key) :
    ∃ result, t.EndsAs leader ⟨key, .returned result⟩ := by
  obtain ⟨since, answer, hleader⟩ := h
  cases answer with
  | none => exact endsAs_of_running hleader
  | some result => exact ⟨result, endsAs_of_answered hleader⟩

theorem closed_of_gone {t : Traffic κ ε} {leader : CallId} {key : κ} {phase : Phase ε}
    (hleader : t.call? leader = some ⟨key, phase⟩) (hgone : phase.isGone = true) :
    (t.step (.close leader)).call? leader = some ⟨key, .cancelled⟩ := by
  cases phase with
  | withdrawn =>
    simp only [step, hleader]
    exact (became_setPhase hleader _ t.cache).self
  | cancelled => exact over_step _ hleader rfl
  | leading | settled | waiting | returned => cases hgone

theorem endsAs_of_gone {t : Traffic κ ε} {leader : CallId} {key : κ} {phase : Phase ε}
    (hleader : t.call? leader = some ⟨key, phase⟩) (hgone : phase.isGone = true) :
    t.EndsAs leader ⟨key, .cancelled⟩ :=
  (endsAs_self (closed_of_gone hleader hgone)).step .close

/-- Whatever a get that is past waiting is doing, it comes to an end. -/
theorem PastWaiting.endsAs {t : Traffic κ ε} {leader : CallId} {key : κ}
    (h : t.PastWaiting leader key) :
    (∃ result, t.EndsAs leader ⟨key, .returned result⟩) ∨ t.EndsAs leader ⟨key, .cancelled⟩ := by
  obtain ⟨phase, hleader, hphase⟩ := h
  cases phase with
  | leading since answer => exact Or.inl (LeadsFor.endsAs ⟨since, answer, hleader⟩)
  | settled result => exact Or.inl ⟨result, endsAs_of_settled hleader⟩
  | returned result => exact Or.inl ⟨result, endsAs_self hleader⟩
  | withdrawn | cancelled => exact Or.inr (endsAs_of_gone hleader rfl)
  | waiting => cases hphase

/-- What a leader does to come to its end leaves all other gets as they are. -/
theorem Finishes.call?_step {m : Move κ ε} {leader id : CallId} (h : Finishes leader m)
    (t : Traffic κ ε) (hne : leader ≠ id) : (t.step m).call? id = t.call? id := by
  apply call?_step_of_ne
  cases h <;> simp [actor?, hne]

theorem call?_run_finishes {t : Traffic κ ε} {leader id : CallId} {rest : List (Move κ ε)}
    (hrest : ∀ m ∈ rest, Finishes leader m) (hne : leader ≠ id) :
    (t.run rest).call? id = t.call? id := by
  induction rest generalizing t with
  | nil => rfl
  | cons m rest ih =>
    obtain ⟨hm, hmore⟩ := List.forall_mem_cons.1 hrest
    exact (ih hmore).trans (hm.call?_step t hne)

theorem received_of_look {t : Traffic κ ε} {id leader : CallId} {key other : κ}
    {result : Except ε Bytes} (hleader : t.call? leader = some ⟨other, .returned result⟩)
    (hwait : t.call? id = some ⟨key, .waiting leader⟩) :
    (t.step (.look id)).call? id = some ⟨key, .returned result⟩ := by
  simp only [step, hwait, hleader]
  exact (became_setPhase hwait _ t.cache).self

/-- What asking comes to: a hit that returns, a wait for the registered fetch, whose leader is
running its loader, or a lead. -/
inductive Admitted (t t' : Traffic κ ε) (id : CallId) (key : κ) : Prop
  | hit {value : Bytes} (live : t.cache.peek t.now key = some value)
      (returned : t'.call? id = some ⟨key, .returned (.ok value)⟩)
  | wait {leader : CallId} (unheld : t.cache.peek t.now key = none)
      (registered : t.cache.leader? key = some leader) (running : t'.LeadsFor leader key)
      (waits : t'.call? id = some ⟨key, .waiting leader⟩)
  | lead (unheld : t.cache.peek t.now key = none) (free : t.cache.leader? key = none)
      (registered : t'.cache.leader? key = some id)
      (leads : t'.call? id = some ⟨key, .leading t.now none⟩)

theorem Asks.admitted {t : Traffic κ ε} {m : Move κ ε} {id : CallId} {key : κ} {first : Bool}
    (hasks : t.Asks m id key first) (hwf : t.WellFormed) : Admitted t (t.step m) id key := by
  have hbecame := hasks.became
  rcases t.cache.consult_cases t.now id first key with
    ⟨value, hpeek, hconsult⟩ | ⟨leader, hpeek, hleader, hconsult⟩ | ⟨hpeek, hleader, hconsult⟩
  · rw [hconsult] at hbecame
    exact .hit hpeek hbecame.self
  · rw [hconsult] at hbecame
    have hleads := hwf.leads key leader (Assoc.mem_of_find?_eq_some hleader)
    have hne : leader ≠ id := fun heq => hasks.not_pastWaiting (heq ▸ hleads.pastWaiting)
    exact .wait hpeek hleader (hbecame.leadsFor hne hleads) hbecame.self
  · rw [hconsult] at hbecame
    have hregistered : (t.step m).cache.leader? key = some id := by
      rw [ReadCache.leader?, hbecame.cache_eq]
      exact Assoc.find?_insert_self ..
    exact .lead hpeek hleader hregistered hbecame.self

/-- A waiting get comes off its leader by moves of the leader, the passing of time and one look: it
returns a result, or it asks again and is admitted. -/
def Unstranded (t : Traffic κ ε) (id leader : CallId) (key : κ) : Prop :=
  ∃ rest, (∀ m ∈ rest, Finishes leader m) ∧
    ((∃ result, (t.run (rest ++ [.look id])).call? id = some ⟨key, .returned result⟩) ∨
      ((t.run rest).Asks (.look id) id key false ∧
        Admitted (t.run rest) (t.run (rest ++ [.look id])) id key))

/-- A get comes to return a result with nobody's help. -/
def Returns (t : Traffic κ ε) (id : CallId) (key : κ) : Prop :=
  ∃ rest, (∀ m ∈ rest, m.isUnaided = true) ∧
    ∃ result, (t.run rest).call? id = some ⟨key, .returned result⟩

theorem Returns.of_run {t : Traffic κ ε} {id : CallId} {key : κ} {moves : List (Move κ ε)}
    (hmoves : ∀ m ∈ moves, m.isUnaided = true) (h : (t.run moves).Returns id key) :
    t.Returns id key := by
  obtain ⟨rest, hrest, hend⟩ := h
  refine ⟨moves ++ rest, List.forall_mem_append.2 ⟨hmoves, hrest⟩, ?_⟩
  rwa [run_append]

theorem EndsAs.returns {t : Traffic κ ε} {id : CallId} {key : κ} {result : Except ε Bytes}
    (h : t.EndsAs id ⟨key, .returned result⟩) : t.Returns id key := by
  obtain ⟨rest, hrest, hend⟩ := h
  exact ⟨rest, fun m hmem => (hrest m hmem).isUnaided, result, hend⟩

/-- Whoever waits for a get that comes to return a result returns it as well. -/
theorem EndsAs.returns_waiting {t : Traffic κ ε} {id leader : CallId} {key other : κ}
    {result : Except ε Bytes} (h : t.EndsAs leader ⟨other, .returned result⟩) (hne : leader ≠ id)
    (hwait : t.call? id = some ⟨key, .waiting leader⟩) : t.Returns id key := by
  obtain ⟨rest, hrest, hend⟩ := h
  have hstill := (call?_run_finishes hrest hne).trans hwait
  refine .of_run (fun m hmem => (hrest m hmem).isUnaided) ?_
  exact ⟨[.look id], by simp [Move.isUnaided], result, received_of_look hend hstill⟩

/-- A get that has asked comes to return a result, whatever it was admitted to. -/
theorem Admitted.returns {t t' : Traffic κ ε} {id : CallId} {key : κ}
    (h : Admitted t t' id key) : t'.Returns id key := by
  cases h with
  | hit _ returned => exact (endsAs_self returned).returns
  | wait _ _ running waits =>
    have hne := running.pastWaiting.ne_of_waiting waits
    obtain ⟨result, hend⟩ := running.endsAs
    exact hend.returns_waiting hne waits
  | lead _ _ _ leads =>
    obtain ⟨result, hend⟩ := LeadsFor.endsAs ⟨_, _, leads⟩
    exact hend.returns

section WellFormed

variable {t : Traffic κ ε} (h : t.WellFormed) {id leader : CallId} {key : κ}
include h

/-- The waiters of a leader that was cancelled are told, and look their key up again. -/
theorem WellFormed.handedOver {other : κ} {phase : Phase ε}
    (hwait : t.call? id = some ⟨key, .waiting leader⟩)
    (hleader : t.call? leader = some ⟨other, phase⟩) (hgone : phase.isGone = true) :
    (t.step (.close leader)).Asks (.look id) id key false ∧
      Admitted (t.step (.close leader)) ((t.step (.close leader)).step (.look id)) id key := by
  have hne := (h.waits id key leader hwait).ne_of_waiting hwait
  have hstill := (Finishes.close.call?_step t hne).trans hwait
  have hasks : (t.step (.close leader)).Asks (.look id) id key false :=
    .again hstill (closed_of_gone hleader hgone)
  exact ⟨hasks, hasks.admitted (h.step _)⟩

/-- Whatever its leader is doing, a waiting get is not stranded. -/
theorem WellFormed.unstranded (hwait : t.call? id = some ⟨key, .waiting leader⟩) :
    t.Unstranded id leader key := by
  have hpast := h.waits id key leader hwait
  have hne := hpast.ne_of_waiting hwait
  rcases hpast.endsAs with ⟨result, rest, hrest, hend⟩ | ⟨rest, hrest, hend⟩
  · have hstill := (call?_run_finishes hrest hne).trans hwait
    refine ⟨rest, hrest, Or.inl ⟨result, ?_⟩⟩
    rw [run_append]
    exact received_of_look hend hstill
  · have hstill := (call?_run_finishes hrest hne).trans hwait
    have hasks : (t.run rest).Asks (.look id) id key false := .again hstill hend
    refine ⟨rest, hrest, Or.inr ⟨hasks, ?_⟩⟩
    rw [run_append]
    exact hasks.admitted (h.run rest)

/-- A get that was not cancelled comes to return a result, also when its leader was. -/
theorem WellFormed.returns {phase : Phase ε} (hcall : t.call? id = some ⟨key, phase⟩)
    (hgone : phase.isGone = false) : t.Returns id key := by
  cases phase with
  | leading since answer =>
    obtain ⟨result, hend⟩ := LeadsFor.endsAs ⟨since, answer, hcall⟩
    exact hend.returns
  | settled result => exact (endsAs_of_settled hcall).returns
  | returned result => exact (endsAs_self hcall).returns
  | withdrawn | cancelled => cases hgone
  | waiting leader =>
    obtain ⟨rest, hrest, hleft⟩ := h.unstranded hcall
    have hmoves : ∀ m ∈ rest ++ [.look id], m.isUnaided = true := by
      refine List.forall_mem_append.2 ⟨fun m hmem => (hrest m hmem).isUnaided, ?_⟩
      simp [Move.isUnaided]
    refine .of_run hmoves ?_
    rcases hleft with ⟨result, hreturned⟩ | ⟨_, hadmitted⟩
    · exact (endsAs_self hreturned).returns
    · exact hadmitted.returns

end WellFormed

/-- All who wait for a fetch agree on its result, in a run from `t`. -/
structure Agreement (t : Traffic κ ε) (moves : List (Move κ ε)) : Prop where
  /-- When a leader finishes, it returns its result, and so do all gets that wait for it by then,
  detached or not, unless they are cancelled themselves. -/
  shared : ∀ before after leader key since result, moves = before ++ .settle leader :: after →
    (t.run before).call? leader = some ⟨key, .leading since (some result)⟩ →
    (t.run moves).Concluded leader key result ∧
      ∀ id, (t.run before).call? id = some ⟨key, .waiting leader⟩ →
        (t.run moves).call? id = some ⟨key, .waiting leader⟩ ∨
          (t.run moves).call? id = some ⟨key, .returned result⟩ ∨
          (.cancel id ∈ after ∧ (t.run moves).call? id = some ⟨key, .cancelled⟩)
  /-- Those that still wait after the publication have only to look. -/
  delivered : ∀ id leader key result,
    (t.run moves).call? id = some ⟨key, .waiting leader⟩ →
    (t.run moves).Concluded leader key result →
    ((t.run moves).run [.publish leader, .look id]).call? id = some ⟨key, .returned result⟩
  /-- A fetch ends with the answer that its loader gave, or else with the error that the time was
  over. -/
  result : ∀ leader ∈ t.loaderStarts moves, ∀ key phase result,
    (t.run moves).call? leader = some ⟨key, phase⟩ → phase.result? = some result →
    t.Decided moves leader key result
  /-- The first answer of a loader, or the error that the time is over if there was none by then,
  is the result from then on, unless the leader is cancelled. -/
  decided : ∀ before m after leader key result, moves = before ++ m :: after →
    (t.run before).Decides m leader key result →
    t.Abandoned moves leader key ∨
      ∃ phase, (t.run moves).call? leader = some ⟨key, phase⟩ ∧ phase.result? = some result
  timed : ∀ leader key since answer,
    (t.run moves).call? leader = some ⟨key, .leading since answer⟩ →
    ∃ before m after, moves = before ++ m :: after ∧
      (t.run before).loaderStart? m = some leader ∧ (t.run before).now = since
  /-- With a prompt timer a loader is heard within the time allowed since its start, or not at
  all. -/
  timely : ∀ before leader result after key since,
    moves = before ++ .answer leader result :: after → t.Prompt before leader →
    (t.run before).call? leader = some ⟨key, .leading since none⟩ →
    (t.run before).now ≤ (t.run before).deadline since
  /-- A get that is cancelled while it leads or waits is gone, and returns nothing any more. -/
  cancelled : ∀ before after id key, moves = before ++ .cancel id :: after →
    ((t.run before).LeadsFor id key ∨
      ∃ leader, (t.run before).call? id = some ⟨key, .waiting leader⟩) →
    ∃ phase, (t.run moves).call? id = some ⟨key, phase⟩ ∧ phase.isGone = true
  /-- A get stops waiting by its own cancellation, with the result of its leader, or to ask again
  after its leader was cancelled while it led, without having come to any result. -/
  leaves : ∀ before m after id leader key, moves = before ++ m :: after →
    (t.run before).call? id = some ⟨key, .waiting leader⟩ →
    ((t.run before).step m).call? id ≠ some ⟨key, .waiting leader⟩ →
    (m = .cancel id ∧ ((t.run before).step m).call? id = some ⟨key, .cancelled⟩) ∨
      (∃ result, (t.run before).call? leader = some ⟨key, .returned result⟩ ∧
        ((t.run before).step m).call? id = some ⟨key, .returned result⟩) ∨
      ((t.run before).Asks m id key false ∧ t.Abandoned before leader key ∧
        ∀ earlier later result, before = earlier ++ later →
          ¬ (t.run earlier).Concluded leader key result)
  /-- Whoever asks, for the first time or again, is served what is held, waits for the fetch that is
  registered, whose leader is running, or leads and is registered. -/
  admitted : ∀ before m after id key first, moves = before ++ m :: after →
    (t.run before).Asks m id key first →
    Admitted (t.run before) ((t.run before).step m) id key
  /-- At most one get leads the registered fetch of a key. -/
  single : ∀ key id other, (key, id) ∈ (t.run moves).cache.inflight →
    (key, other) ∈ (t.run moves).cache.inflight → id = other
  /-- The leader of a waiting get is running, has a result, or was cancelled while it led. -/
  attached : ∀ id leader key, (t.run moves).call? id = some ⟨key, .waiting leader⟩ →
    leader ∈ t.loaderStarts moves ∧
      ((t.run moves).LeadsFor leader key ∨
        (∃ result, (t.run moves).Concluded leader key result) ∨
        t.Abandoned moves leader key)
  /-- Whoever waits for a leader that was cancelled asks again with its next look, as soon as it is
  told, and is admitted. -/
  handedOver : ∀ id leader key other phase,
    (t.run moves).call? id = some ⟨key, .waiting leader⟩ →
    (t.run moves).call? leader = some ⟨other, phase⟩ → phase.isGone = true →
    ((t.run moves).step (.close leader)).Asks (.look id) id key false ∧
      Admitted ((t.run moves).step (.close leader))
        (((t.run moves).step (.close leader)).step (.look id)) id key
  unstranded : ∀ id leader key, (t.run moves).call? id = some ⟨key, .waiting leader⟩ →
    (t.run moves).Unstranded id leader key
  returns : ∀ id key phase, (t.run moves).call? id = some ⟨key, phase⟩ → phase.isGone = false →
    (t.run moves).Returns id key
  /-- Whatever a get returns, value or error, was decided by a fetch of its key: never by the
  cancellation of another get. -/
  sound : ∀ id key result, (t.run moves).call? id = some ⟨key, .returned result⟩ →
    ∃ leader ∈ t.loaderStarts moves, t.Decided moves leader key result

theorem delivered_of_concluded {t : Traffic κ ε} {id leader : CallId} {key : κ}
    {result : Except ε Bytes} (hwait : t.call? id = some ⟨key, .waiting leader⟩)
    (hdone : t.Concluded leader key result) :
    (t.run [.publish leader, .look id]).call? id = some ⟨key, .returned result⟩ := by
  have hpast : t.PastWaiting leader key := by
    rcases hdone with hsettled | hreturned
    · exact ⟨_, hsettled, rfl⟩
    · exact ⟨_, hreturned, rfl⟩
  have hstill : (t.step (.publish leader)).call? id = some ⟨key, .waiting leader⟩ :=
    (Finishes.publish.call?_step t (hpast.ne_of_waiting hwait)).trans hwait
  have hpublished : (t.step (.publish leader)).call? leader = some ⟨key, .returned result⟩ := by
    rcases hdone with hsettled | hreturned
    · simp only [step, hsettled]
      exact (became_setPhase hsettled _ t.cache).self
    · exact over_step _ hreturned rfl
  exact received_of_look hpublished hstill

/-- In every run on a new cache all who wait for a fetch agree on its result, and nobody who waits
is forgotten. -/
theorem agreement_run (config : CacheConfig) (now : Nat) (moves : List (Move κ ε)) :
    Agreement (start (.create config) now) moves := by
  have hstart := start_wellFormed (κ := κ) (ε := ε) config now
  have hnone : ∀ (key : κ) id, (key, id) ∉ (start (ε := ε) (.create config) now).cache.inflight :=
    fun key => (ReadCache.create_forgotten config key).unregistered
  have hnew : ∀ id, (start (κ := κ) (ε := ε) (.create config) now).call? id = none :=
    fun id => by simp [start, call?]
  have hwf := hstart.run moves
  refine ⟨?shared, fun _ _ _ _ => delivered_of_concluded, fun _ hstarted _ _ _ hcall hresult =>
    decided_of_result hstarted hcall hresult, ?decided, ?timed, ?timely, ?cancelled, ?leaves,
    ?admitted, ?single, ?attached, fun _ _ _ _ _ => hwf.handedOver, fun _ _ _ => hwf.unstranded,
    fun _ _ _ => hwf.returns, ?sound⟩
  case shared =>
    rintro before after leader key since result rfl hcall
    have hsettled : ((start (.create config) now).run before |>.step (.settle leader)).Concluded
        leader key result := by
      left
      simp only [step, hcall]
      exact (became_setPhase hcall _ _).self
    rw [run_append, run_cons]
    refine ⟨concluded_run after hsettled, fun id hwait => ?_⟩
    have hpast : ((start (.create config) now).run before).PastWaiting leader key :=
      ⟨_, hcall, rfl⟩
    have hstill := (Finishes.settle.call?_step _ (hpast.ne_of_waiting hwait)).trans hwait
    exact follows_run hsettled hstill
  case decided =>
    rintro before m after leader key result rfl hdecides
    obtain ⟨since, hleading, hdecided⟩ := hdecides.step
    have hstarted := led_started (hnew leader) hleading rfl
    rw [run_append, run_cons]
    obtain ⟨phase, hcall, hgone | ⟨_, hresult⟩⟩ := outcome_run after hdecided (Or.inr rfl)
    · have hmem : leader ∈ (start (.create config) now).loaderStarts (before ++ m :: after) := by
        rw [loaderStarts_append]
        exact List.mem_append_left _ hstarted
      refine Or.inl (abandoned_of_gone hmem ?_ hgone)
      rw [run_append]
      exact hcall
    · exact Or.inr ⟨phase, hcall, hresult⟩
  case cancelled =>
    rintro before after id key rfl hbefore
    obtain ⟨phase, hcall, hgone⟩ := gone_of_cancel hbefore
    rw [run_append, run_cons]
    obtain ⟨last, hlast, hends | ⟨hback, _⟩⟩ := outcome_run after hcall (Or.inl hgone)
    · exact ⟨last, hlast, hends⟩
    · cases hgone.symm.trans hback
  case timed =>
    intro leader key since answer hcall
    exact started_of_leading (by simp [isLeading, hnew]) hcall
  case timely =>
    rintro before leader result after key since rfl hprompt hcall
    exact now_le_deadline (by simp [isLeading, hnew]) hprompt hcall
  case admitted =>
    rintro before m after id key first rfl hasks
    exact hasks.admitted (hstart.run before)
  case leaves =>
    rintro before m after id leader key rfl hwait hleft
    rcases waiting_step (m := m) hwait with
      hkeep | hcancelled | ⟨result, other, hreturned, hreceived⟩ | ⟨hasks, other, hgone⟩
    · exact absurd hkeep hleft
    · exact Or.inl hcancelled
    · obtain rfl := PastWaiting.key_eq hreturned ((hstart.run before).waits id key leader hwait)
      exact Or.inr (Or.inl ⟨result, hreturned, hreceived⟩)
    · obtain rfl := PastWaiting.key_eq hgone ((hstart.run before).waits id key leader hwait)
      have hstarted := waits_started (hnone key) (fun _ h => by simp [hnew] at h) hwait
      refine Or.inr (Or.inr ⟨hasks, abandoned_of_gone hstarted hgone rfl, ?_⟩)
      rintro earlier later result rfl hdone
      rw [run_append] at hgone
      rcases concluded_run later hdone with hsettled | hreturned
      · cases hsettled.symm.trans hgone
      · cases hreturned.symm.trans hgone
  case single =>
    intro key id other hid hother
    have hsame := Assoc.find?_eq_some_of_mem hwf.keys_nodup hid
    exact Option.some.inj (hsame.symm.trans (Assoc.find?_eq_some_of_mem hwf.keys_nodup hother))
  case attached =>
    intro id leader key hwait
    have hstarted := waits_started (hnone key) (fun _ h => by simp [hnew] at h) hwait
    obtain ⟨phase, hcall, hphase⟩ := hwf.waits id key leader hwait
    refine ⟨hstarted, ?_⟩
    cases phase with
    | leading since answer => exact Or.inl ⟨since, answer, hcall⟩
    | settled result => exact Or.inr (Or.inl ⟨result, Or.inl hcall⟩)
    | returned result => exact Or.inr (Or.inl ⟨result, Or.inr hcall⟩)
    | withdrawn | cancelled => exact Or.inr (Or.inr (abandoned_of_gone hstarted hcall rfl))
    | waiting => cases hphase
  case sound =>
    intro id key result hcall
    exact returned_started hstart (ReadCache.create_forgotten config key) (hnew id) hcall

end Traffic

end KeyedBlocks
