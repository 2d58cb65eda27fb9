import KeyedBlocks.Proofs.Relational.Records

/-!
Transactions in their stages. A transaction begins on a connection, carries out its statements on a
working copy of the tables, and is committed, which makes the working copy the tables of the
database. The connection may break down at any stage; what was not committed is then rolled back.
Where it does not break down, the stages come to the transaction that is made at once.
-/
namespace KeyedBlocks

inductive Stage
  | begin
  | execute (statement : Statement)
  | commit
  deriving DecidableEq, Repr

def Stage.all (statements : List Statement) : List Stage :=
  .begin :: (statements.map .execute ++ [.commit])

/-- A transaction on its way. -/
structure Transaction where
  database : Relational
  /-- The tables as the transaction has left them so far. -/
  working : Tables
  /-- How many stages are over. -/
  passed : Nat

namespace Transaction

def start (d : Relational) : Transaction := ⟨d, d.tables, 0⟩

def execute (t : Transaction) (statement : Statement) : Except Fault Tables :=
  if t.database.readOnly then do
    let _ ← t.working.exec {} statement
    .error readOnlyDatabase
  else t.working.exec t.database.guards statement

def pass (t : Transaction) : Stage → Except Fault Transaction
  | .begin =>
      if t.database.isOpen then .ok { t with working := t.database.tables }
      else .error .closedPool
  | .execute statement => (t.execute statement).map fun working => { t with working }
  | .commit => .ok { t with database := { t.database with tables := t.working } }

/-- Go through a stage, unless the connection breaks down there; `breakdown` tells the fault for the
places of the stages where it does. -/
def step (breakdown : Nat → Option Fault) (t : Transaction) (stage : Stage) :
    Transaction × Except Fault Unit :=
  match breakdown t.passed, t.pass stage with
  | some fault, _ => (t, .error fault)
  | none, .error fault => (t, .error fault)
  | none, .ok next => ({ next with passed := t.passed + 1 }, .ok ())

def calm : Nat → Option Fault := fun _ => none

def run (breakdown : Nat → Option Fault) (t : Transaction) (stages : List Stage) :
    Transaction × Except Fault Unit :=
  runSteps (step breakdown) t stages

end Transaction

/-- A relational database whose connections may break down in the course of a transaction. -/
structure Unreliable where
  database : Relational
  breakdown : Nat → Option Fault

namespace Unreliable

/-- Go through the stages of a transaction. The working copy of one that fails is lost. -/
def transaction (u : Unreliable) (statements : List Statement) :
    Unreliable × Except StoreError Unit :=
  let (t, result) := (Transaction.start u.database).run u.breakdown (Stage.all statements)
  ({ u with database := t.database }, Relational.lift result)

instance : Backend Unreliable (List Statement) where
  has u a := (u, u.database.has a)
  read u a := u.database.read a
  readDelay u := u.database.readDelay
  countReads u _ := u
  perform := transaction
  put := putStatements
  delete := deleteStatements
  flush := Relational.flush

def pace (u : Unreliable) (ms : Nat) : Unreliable := { u with database := u.database.pace ms }

/-- The stage at place `i` of a transaction is the first to fail, with the given fault. -/
def FailsAt (u : Unreliable) (statements : List Statement) (i : Nat) (fault : Fault) : Prop :=
  ∃ before stage after t, Stage.all statements = before ++ stage :: after ∧ before.length = i ∧
    (Transaction.start u.database).run u.breakdown before = (t, .ok ()) ∧
    t.step u.breakdown stage = (t, .error fault)

end Unreliable

namespace Transaction

variable {breakdown : Nat → Option Fault} {t t' : Transaction} {stage : Stage} {fault : Fault}

theorem step_ok (h : t.step breakdown stage = (t', .ok ())) :
    ∃ next, t.pass stage = .ok next ∧ t' = { next with passed := t.passed + 1 } := by
  unfold step at h
  split at h
  · cases h
  · cases h
  · rename_i next _ hpass
    cases h
    exact ⟨next, hpass, rfl⟩

theorem step_calm {next : Transaction} (hpass : t.pass stage = .ok next) :
    t.step calm stage = ({ next with passed := t.passed + 1 }, .ok ()) := by
  simp only [step, calm, hpass]

theorem step_calm_error (hpass : t.pass stage = .error fault) :
    t.step calm stage = (t, .error fault) := by
  simp only [step, calm, hpass]

/-- A stage that fails leaves everything as it was. -/
theorem step_error (h : t.step breakdown stage = (t', .error fault)) : t' = t := by
  unfold step at h
  split at h
  · cases h
    rfl
  · cases h
    rfl
  · cases h

/-- Only the commit changes the database. -/
theorem pass_database {next : Transaction} (hstage : stage ≠ .commit)
    (h : t.pass stage = .ok next) : next.database = t.database := by
  cases stage with
  | begin =>
    simp only [pass] at h
    split at h
    · cases h
      rfl
    · cases h
  | execute statement =>
    simp only [pass] at h
    cases hexecute : t.execute statement with
    | error fault =>
      rw [hexecute] at h
      cases h
    | ok working =>
      rw [hexecute] at h
      cases h
      rfl
  | commit => exact absurd rfl hstage

theorem step_database {result : Except Fault Unit} (hstage : stage ≠ .commit)
    (h : t.step breakdown stage = (t', result)) : t'.database = t.database := by
  cases result with
  | error fault => rw [step_error h]
  | ok =>
    obtain ⟨next, hpass, rfl⟩ := step_ok h
    have hnext : next.database = t.database := pass_database hstage hpass
    exact hnext

/-- Before the commit the database is as it was when the transaction began. -/
theorem run_database {stages : List Stage} {result : Except Fault Unit}
    (hstages : .commit ∉ stages) (h : t.run breakdown stages = (t', result)) :
    t'.database = t.database := by
  induction stages generalizing t with
  | nil =>
    cases h
    rfl
  | cons stage rest ih =>
    have hstage : stage ≠ .commit := Ne.symm (List.ne_of_not_mem_cons hstages)
    rcases hstep : t.step breakdown stage with ⟨next, fault | _⟩
    · obtain ⟨rfl, rfl⟩ := Prod.mk.inj ((runSteps_cons_error hstep rest).symm.trans h)
      exact step_database hstage hstep
    · have hrest : next.run breakdown rest = (t', result) :=
        (runSteps_cons_ok hstep rest).symm.trans h
      have hnext := step_database hstage hstep
      exact (ih (List.not_mem_of_not_mem_cons hstages) hrest).trans hnext

theorem run_passed {stages : List Stage} (h : t.run breakdown stages = (t', .ok ())) :
    t'.passed = t.passed + stages.length := by
  induction stages generalizing t with
  | nil =>
    cases h
    rfl
  | cons stage rest ih =>
    obtain ⟨next, hstep, hrest⟩ := runSteps_cons_eq_ok_iff.1 h
    obtain ⟨passed, _, rfl⟩ := step_ok hstep
    have hpassed := ih hrest
    simp only [List.length_cons] at hpassed ⊢
    omega

/-- A statement is carried out only where writing is not refused. -/
theorem execute_ok {statement : Statement} {working : Tables}
    (h : t.execute statement = .ok working) :
    t.working.exec t.database.guards statement = .ok working := by
  unfold execute at h
  split at h
  · cases hexec : t.working.exec {} statement with
    | error fault =>
      rw [hexec] at h
      cases h
    | ok next =>
      rw [hexec] at h
      cases h
  · exact h

theorem step_begin (h : t.step breakdown .begin = (t', .ok ())) :
    t'.database = t.database ∧ t'.working = t.database.tables := by
  obtain ⟨next, hpass, rfl⟩ := step_ok h
  simp only [pass] at hpass
  split at hpass
  · cases hpass
    exact ⟨rfl, rfl⟩
  · cases hpass

theorem step_execute {statement : Statement}
    (h : t.step breakdown (.execute statement) = (t', .ok ())) :
    t'.database = t.database ∧
      t.working.exec t.database.guards statement = .ok t'.working := by
  refine ⟨step_database (fun hcommit => by cases hcommit) h, ?_⟩
  obtain ⟨next, hpass, rfl⟩ := step_ok h
  simp only [pass] at hpass
  cases hexecute : t.execute statement with
  | error fault =>
    rw [hexecute] at hpass
    cases hpass
  | ok working =>
    rw [hexecute] at hpass
    cases hpass
    exact execute_ok hexecute

theorem step_commit (h : t.step breakdown .commit = (t', .ok ())) :
    t'.database = { t.database with tables := t.working } := by
  obtain ⟨next, hpass, rfl⟩ := step_ok h
  cases hpass
  rfl

/-- Statements that are carried out one after the other leave in the working copy what they leave
when they are carried out at once. -/
theorem run_executes {statements : List Statement}
    (h : t.run breakdown (statements.map .execute) = (t', .ok ())) :
    t'.database = t.database ∧
      t.working.execAll t.database.guards statements = .ok t'.working := by
  induction statements generalizing t with
  | nil =>
    cases h
    exact ⟨rfl, rfl⟩
  | cons statement rest ih =>
    obtain ⟨next, hstep, hrest⟩ := runSteps_cons_eq_ok_iff.1 h
    obtain ⟨hdatabase, hexec⟩ := step_execute hstep
    obtain ⟨hsame, hall⟩ := ih hrest
    rw [hdatabase] at hall
    exact ⟨hsame.trans hdatabase, Tables.execAll_cons.2 ⟨next.working, hexec, hall⟩⟩

/-- Where nothing breaks down and writing is not refused, statements fail as they do at once. -/
theorem run_executes_calm (hwritable : t.database.readOnly = false) (statements : List Statement) :
    ∃ t', t.run calm (statements.map .execute) =
      (t', (t.working.execAll t.database.guards statements).map fun _ => ()) := by
  induction statements generalizing t with
  | nil => exact ⟨t, rfl⟩
  | cons statement rest ih =>
    have hpass : t.pass (.execute statement) =
        (t.working.exec t.database.guards statement).map fun working => { t with working } := by
      simp only [pass, execute, hwritable, Bool.false_eq_true, if_false]
    have hall : t.working.execAll t.database.guards (statement :: rest) =
        t.working.exec t.database.guards statement >>= fun next =>
          next.execAll t.database.guards rest := List.foldlM_cons
    rw [hall]
    cases hexec : t.working.exec t.database.guards statement with
    | error fault =>
      rw [hexec] at hpass
      exact ⟨t, runSteps_cons_error (step_calm_error hpass) _⟩
    | ok working =>
      rw [hexec] at hpass
      obtain ⟨t', hrest⟩ := ih (t := ⟨t.database, working, t.passed + 1⟩) hwritable
      exact ⟨t', (runSteps_cons_ok (step_calm hpass) _).trans hrest⟩

end Transaction

/-- What stands before a stage of a transaction is no commit. -/
theorem Stage.commit_not_mem {statements : List Statement} {before after : List Stage}
    {stage : Stage} (h : Stage.all statements = before ++ stage :: after) : .commit ∉ before := by
  have hfront : Stage.commit ∉ Stage.begin :: statements.map Stage.execute := by simp
  have hsplit : (Stage.begin :: statements.map Stage.execute) ++ [Stage.commit] =
      before ++ stage :: after := h
  rcases split_concat_cases hsplit with ⟨hbefore, _, _⟩ | ⟨rest, _, hbefore⟩
  · exact hbefore ▸ hfront
  · intro hmem
    exact hfront (hbefore ▸ List.mem_append_left _ hmem)

namespace Unreliable

variable {u : Unreliable} {statements : List Statement} {i : Nat} {fault : Fault}

/-- Wherever a transaction fails, it reports the fault, and everything it has done is rolled back.
-/
theorem FailsAt.transaction (h : u.FailsAt statements i fault) :
    u.transaction statements = (u, Relational.fail fault) := by
  obtain ⟨before, stage, after, t, hsplit, _, hbefore, hfail⟩ := h
  have hrun : (Transaction.start u.database).run u.breakdown (Stage.all statements) =
      (t, .error fault) :=
    runSteps_eq_error_iff.2 ⟨before, stage, after, t, hsplit, hbefore, hfail⟩
  have hdatabase : t.database = u.database :=
    Transaction.run_database (Stage.commit_not_mem hsplit) hbefore
  unfold Unreliable.transaction
  rw [hrun]
  simp only [hdatabase]
  rfl

/-- A breakdown is a failure at its place, if no stage before it fails. -/
theorem failsAt_of_breakdown (hbreak : u.breakdown i = some fault)
    (hplace : i < (Stage.all statements).length)
    (hfirst : ∀ j < i, ∀ other, ¬ u.FailsAt statements j other) : u.FailsAt statements i fault := by
  have hsplit : Stage.all statements =
      (Stage.all statements).take i ++ (Stage.all statements)[i] ::
        (Stage.all statements).drop (i + 1) := by
    rw [← List.drop_eq_getElem_cons hplace, List.take_append_drop]
  have hlength : ((Stage.all statements).take i).length = i := by
    rw [List.length_take]
    omega
  rcases hbefore : (Transaction.start u.database).run u.breakdown
      ((Stage.all statements).take i) with ⟨t, other | _⟩
  · -- A stage before the place fails.
    obtain ⟨front, stage, back, mid, htake, hfront, hfail⟩ := runSteps_eq_error_iff.1 hbefore
    obtain rfl := Transaction.step_error hfail
    have hearlier : front.length < i := by
      have hlengths := congrArg List.length htake
      rw [hlength, List.length_append, List.length_cons] at hlengths
      omega
    rw [htake, List.append_assoc] at hsplit
    exact absurd ⟨front, stage, _, t, hsplit, rfl, hfront, hfail⟩ (hfirst _ hearlier other)
  · have hpassed : t.passed = i := by
      have hcount := Transaction.run_passed hbefore
      rw [hlength] at hcount
      simpa [Transaction.start] using hcount
    refine ⟨_, _, _, t, hsplit, hlength, hbefore, ?_⟩
    unfold Transaction.step
    rw [hpassed, hbreak]

/-- A transaction that fails nowhere carries out all its statements. -/
theorem transaction_done (h : ∀ i fault, ¬ u.FailsAt statements i fault) :
    ∃ tables, u.database.tables.execAll u.database.guards statements = .ok tables ∧
      u.transaction statements =
        ({ u with database := { u.database with tables } }, .ok ()) := by
  rcases hrun : (Transaction.start u.database).run u.breakdown (Stage.all statements) with
    ⟨t, fault | _⟩
  · obtain ⟨before, stage, after, mid, hsplit, hbefore, hfail⟩ := runSteps_eq_error_iff.1 hrun
    obtain rfl := Transaction.step_error hfail
    exact absurd ⟨before, stage, after, t, hsplit, rfl, hbefore, hfail⟩ (h _ fault)
  · obtain ⟨begun, hbegin, hrest⟩ := runSteps_cons_eq_ok_iff.1 hrun
    obtain ⟨carried, hexecutes, hlast⟩ := runSteps_append_eq_ok_iff.1 hrest
    obtain ⟨committed, hcommit, hnil⟩ := runSteps_cons_eq_ok_iff.1 hlast
    cases hnil
    obtain ⟨hdatabase, hworking⟩ := Transaction.step_begin hbegin
    obtain ⟨hsame, hexec⟩ := Transaction.run_executes hexecutes
    rw [hworking, hdatabase] at hexec
    have hresult : t.database = { u.database with tables := carried.working } := by
      rw [Transaction.step_commit hcommit, hsame, hdatabase]
      rfl
    refine ⟨carried.working, hexec, ?_⟩
    unfold Unreliable.transaction
    rw [hrun]
    simp only [hresult]
    rfl

section Calm

open Transaction (calm)

variable {d : Relational}

theorem transaction_of_run {t : Transaction} {result : Except Fault Unit}
    (h : (Transaction.start d).run calm (Stage.all statements) = (t, result)) :
    transaction ⟨d, calm⟩ statements = (⟨t.database, calm⟩, Relational.lift result) := by
  unfold transaction
  rw [h]

theorem transaction_closed (hclosed : d.isOpen = false) (statements : List Statement) :
    transaction ⟨d, calm⟩ statements = (⟨d, calm⟩, Relational.fail .closedPool) := by
  have hbegin : (Transaction.start d).pass .begin = .error .closedPool := by
    simp [Transaction.pass, Transaction.start, hclosed]
  have hrun : (Transaction.start d).run calm (Stage.all statements) =
      (Transaction.start d, .error .closedPool) :=
    runSteps_cons_error (Transaction.step_calm_error hbegin) _
  exact transaction_of_run hrun

theorem begin_open (hopen : d.isOpen = true) :
    (Transaction.start d).step calm .begin = (⟨d, d.tables, 1⟩, .ok ()) := by
  have hpass : (Transaction.start d).pass .begin = .ok ⟨d, d.tables, 0⟩ := by
    simp [Transaction.pass, Transaction.start, hopen]
  exact Transaction.step_calm hpass

/-- Where writing is refused, the first statement is looked at and fails. -/
theorem transaction_refused (hopen : d.isOpen = true) (hreadOnly : d.readOnly = true)
    (statements : List Statement) : transaction ⟨d, calm⟩ statements =
      (⟨d, calm⟩, Relational.lift (d.tables.refuse statements)) := by
  cases statements with
  | nil =>
    have hrun : (Transaction.start d).run calm (Stage.all []) = (⟨d, d.tables, 2⟩, .ok ()) :=
      runSteps_cons_ok (begin_open hopen) _
    exact transaction_of_run hrun
  | cons statement rest =>
    obtain ⟨fault, hrefuse, hfail⟩ : ∃ fault, d.tables.refuse (statement :: rest) = .error fault ∧
        Transaction.pass ⟨d, d.tables, 1⟩ (.execute statement) = .error fault := by
      simp only [Transaction.pass, Transaction.execute, hreadOnly, if_true, Tables.refuse]
      cases d.tables.exec {} statement <;> exact ⟨_, rfl, rfl⟩
    have hrun : (Transaction.start d).run calm (Stage.all (statement :: rest)) =
        (⟨d, d.tables, 1⟩, .error fault) :=
      (runSteps_cons_ok (begin_open hopen) _).trans
        (runSteps_cons_error (Transaction.step_calm_error hfail) _)
    rw [transaction_of_run hrun, hrefuse]

theorem transaction_failed (hopen : d.isOpen = true) (hwritable : d.readOnly = false)
    (hexec : d.tables.execAll d.guards statements = .error fault) :
    transaction ⟨d, calm⟩ statements = (⟨d, calm⟩, Relational.fail fault) := by
  obtain ⟨t, hexecutes⟩ :=
    Transaction.run_executes_calm (t := ⟨d, d.tables, 1⟩) hwritable statements
  rw [hexec] at hexecutes
  have hdatabase : t.database = d := Transaction.run_database (by simp) hexecutes
  have hrun : (Transaction.start d).run calm (Stage.all statements) = (t, .error fault) :=
    (runSteps_cons_ok (begin_open hopen) _).trans (runSteps_append_error hexecutes [.commit])
  rw [transaction_of_run hrun, hdatabase]
  rfl

theorem transaction_committed (hopen : d.isOpen = true) (hwritable : d.readOnly = false)
    {tables : Tables} (hexec : d.tables.execAll d.guards statements = .ok tables) :
    transaction ⟨d, calm⟩ statements = (⟨{ d with tables }, calm⟩, .ok ()) := by
  obtain ⟨t, hexecutes⟩ :=
    Transaction.run_executes_calm (t := ⟨d, d.tables, 1⟩) hwritable statements
  rw [hexec] at hexecutes
  obtain ⟨hdatabase, hworking⟩ := Transaction.run_executes hexecutes
  obtain rfl : t.working = tables := Except.ok.inj (hworking.symm.trans hexec)
  have hrun : (Transaction.start d).run calm (Stage.all statements) =
      (⟨{ t.database with tables := t.working }, t.working, t.passed + 1⟩, .ok ()) :=
    (runSteps_cons_ok (begin_open hopen) _).trans (runSteps_append_ok hexecutes [.commit])
  rw [transaction_of_run hrun, hdatabase]
  rfl

/-- On connections that do not break down a transaction is the one that is made at once. -/
theorem transaction_calm (d : Relational) (statements : List Statement) :
    transaction ⟨d, calm⟩ statements =
      (⟨(d.transaction statements).1, calm⟩, (d.transaction statements).2) := by
  cases hopen : d.isOpen with
  | false =>
    rw [transaction_closed hopen]
    simp [Relational.transaction, hopen]
  | true =>
    cases hreadOnly : d.readOnly with
    | true =>
      rw [transaction_refused hopen hreadOnly]
      simp [Relational.transaction, hopen, hreadOnly]
    | false =>
      cases hexec : d.tables.execAll d.guards statements with
      | error fault =>
        rw [transaction_failed hopen hreadOnly hexec]
        simp [Relational.transaction, hopen, hreadOnly, hexec]
      | ok tables =>
        rw [transaction_committed hopen hreadOnly hexec]
        simp [Relational.transaction, hopen, hreadOnly, hexec]

end Calm

end Unreliable

end KeyedBlocks
