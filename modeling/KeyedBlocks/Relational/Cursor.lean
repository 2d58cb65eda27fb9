import KeyedBlocks.Address.Scheme
import KeyedBlocks.Error

/-!
A cursor over the keys of a relational database in the order of their bytes. Keys are read a page
at a time, from the key that follows the last one read; values are read one by one. A step asks the
database at most once and goes on with the answer, so that the database may change between steps.
-/
namespace KeyedBlocks

inductive CursorState
  | pending
  | positioned (key : Bytes)
  | exhausted
  | failed (e : StoreError)
  deriving DecidableEq, Repr

structure Cursor where
  /-- What all keys begin with. -/
  stem : Bytes
  /-- The lower end of the next page, unless there is none. -/
  lower : Option Bytes
  page : List Bytes
  pageSize : Nat
  state : CursorState
  deriving DecidableEq, Repr

namespace Cursor

/-- Start at the first key that begins with `stem` and is not before `stem` and `start`. -/
def create (stem start : Bytes) (pageSize : Nat) : Cursor :=
  ⟨stem, some (stem ++ start), [], max pageSize 1, .pending⟩

/-- Nothing more is read. An error is kept, everything else is over. -/
def finish (c : Cursor) : Cursor :=
  { c with
    page := []
    lower := none
    state :=
      match c.state with
      | .failed e => .failed e
      | _ => .exhausted }

def failWith (c : Cursor) (e : StoreError) : Cursor := { c with state := .failed e }.finish

def successor (key : Bytes) : Bytes := key ++ [0]

/-- The lower end of the page after this one, which is the last unless it is full. -/
def following (c : Cursor) (keys : List Bytes) : Option Bytes :=
  if keys.length = c.pageSize then keys.getLast?.map successor else none

def advance (c : Cursor) : Cursor × Bool :=
  match c.page with
  | key :: rest =>
      if c.stem.isPrefixOf key then
        ({ c with page := rest, state := .positioned key }, true)
      else (c.finish, false)
  | [] => (c.finish, false)

def isOver (c : Cursor) : Bool :=
  match c.state with
  | .exhausted | .failed _ => true
  | _ => false

/-- A step that is done, or asks for something and goes on with the answer. -/
inductive Step (θ α ρ : Type)
  | done (outcome : ρ)
  | ask (question : θ) (goOn : α → ρ)

namespace Step

variable {θ α ρ σ : Type}

def answered (answer : θ → α) : Step θ α ρ → ρ
  | done outcome => outcome
  | ask question goOn => goOn (answer question)

def question? : Step θ α ρ → Option θ
  | done _ => none
  | ask question _ => some question

def map (f : ρ → σ) : Step θ α ρ → Step θ α σ
  | done outcome => .done (f outcome)
  | ask question goOn => .ask question (f ∘ goOn)

theorem answered_map (f : ρ → σ) (answer : θ → α) (step : Step θ α ρ) :
    (step.map f).answered answer = f (step.answered answer) := by
  cases step <;> rfl

theorem question?_map (f : ρ → σ) (step : Step θ α ρ) :
    (step.map f).question? = step.question? := by
  cases step <;> rfl

/-- The outcome depends on the answer to what is asked, and on nothing else. -/
theorem answered_congr {answer other : θ → α} {step : Step θ α ρ}
    (h : ∀ question, step.question? = some question → answer question = other question) :
    step.answered answer = step.answered other := by
  cases step with
  | done outcome => rfl
  | ask question goOn => exact congrArg goOn (h question rfl)

end Step

def receive (c : Cursor) : Except StoreError (List Bytes) → Cursor × Bool
  | .error e => (c.failWith e, false)
  | .ok keys => { c with page := keys, lower := c.following keys }.advance

/-- Step to the next key; whether there is one. A page is asked for by its lower end and size. -/
def nextStep (c : Cursor) : Step (Bytes × Nat) (Except StoreError (List Bytes)) (Cursor × Bool) :=
  if c.isOver then .done (c, false)
  else if !c.page.isEmpty then .done c.advance
  else
    match c.lower with
    | none => .done (c.finish, false)
    | some start => .ask (start, c.pageSize) c.receive

def next (c : Cursor) (scan : Bytes → Nat → Except StoreError (List Bytes)) : Cursor × Bool :=
  c.nextStep.answered fun page => scan page.1 page.2

def key? (c : Cursor) : Option Bytes :=
  match c.state with
  | .positioned key => some key
  | _ => none

def error? (c : Cursor) : Option StoreError :=
  match c.state with
  | .failed e => some e
  | _ => none

def found (key : Bytes) : Except StoreError (Option Bytes) → Except StoreError Bytes
  | .ok (some value) => .ok value
  | .ok none => .error (.notFound (Hex.encode key))
  | .error e => .error e

/-- Read the value of a key, under the address that the key derives to. -/
def readStep (scheme : Scheme) (key : Bytes) :
    Step Address (Except StoreError (Option Bytes)) (Except StoreError Bytes) :=
  match scheme.deriveRaw key with
  | .error e => .done (.error (.ofKeyError e))
  | .ok a => .ask a (found key)

/-- A value that cannot be read ends the iteration. -/
def conclude (c : Cursor) : Except StoreError Bytes → Cursor × Except StoreError Bytes
  | .ok value => (c, .ok value)
  | .error e => (c.failWith e, .error e)

def valueStep (c : Cursor) (scheme : Scheme) :
    Step Address (Except StoreError (Option Bytes)) (Cursor × Except StoreError Bytes) :=
  match c.state with
  | .positioned key => (readStep scheme key).map c.conclude
  | _ => .done (c, .error (.unsupported "value of an unpositioned iterator"))

def value (c : Cursor) (scheme : Scheme) (read : Address → Except StoreError (Option Bytes)) :
    Cursor × Except StoreError Bytes :=
  (c.valueStep scheme).answered read

def release (c : Cursor) : Cursor := c.finish

end Cursor

end KeyedBlocks
