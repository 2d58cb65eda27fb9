import KeyedBlocks.Proofs.Places
import KeyedBlocks.Proofs.Relational.Values

/-!
Calls of a cursor in any order, over databases that may fail at every call. The cursor is at a key
as long as its last step came to one and nothing has ended the iteration since. A step to no key, a
value that cannot be read and a release end it for good: no call asks a database any more. An error
comes from a failure alone, and stays.
-/
namespace KeyedBlocks.Cursor

/-- What a database answers at a call. -/
structure Source where
  scan : Bytes → Nat → Except StoreError (List Bytes)
  read : Address → Except StoreError (Option Bytes)

inductive Call
  | next | key | value | error | release
  deriving DecidableEq

inductive Reply
  /-- Whether there is a next key. -/
  | moved (found : Bool)
  | key (key : Option Bytes)
  | value (result : Except StoreError Bytes)
  | error (e : Option StoreError)
  | released

inductive Query
  | page (lower : Bytes) (limit : Nat)
  | block (a : Address)

def Query.Alike : Query → Source → Source → Prop
  | .page lower limit, s, s' => s.scan lower limit = s'.scan lower limit
  | .block a, s, s' => s.read a = s'.read a

/-- A cursor that was at a key is not there any more. -/
def Reply.Spoils : Reply → Prop
  | .moved _ | .value (.error _) | .released => True
  | .value (.ok _) | .key _ | .error _ => False

def Reply.Ends (key? : Option Bytes) : Reply → Prop
  | .moved false | .released => True
  | .value (.error _) => key?.isSome = true
  | .moved true | .value (.ok _) | .key _ | .error _ => False

section Calls

variable (scheme : Scheme) (c : Cursor)

def call (s : Source) : Call → Cursor × Reply
  | .next => ((c.next s.scan).1, .moved (c.next s.scan).2)
  | .key => (c, .key c.key?)
  | .value => ((c.value scheme s.read).1, .value (c.value scheme s.read).2)
  | .error => (c, .error c.error?)
  | .release => (c.release, .released)

/-- The question of the step that a call is, if it asks one. -/
def query? : Call → Option Query
  | .next => c.nextStep.question?.map fun page => .page page.1 page.2
  | .value => (c.valueStep scheme).question?.map .block
  | .key | .error | .release => none

def calls : List (Source × Call) → Cursor :=
  List.foldl (fun c made => (c.call scheme made.1 made.2).1) c

def replies : Cursor → List (Source × Call) → List Reply
  | _, [] => []
  | c, made :: rest =>
    (c.call scheme made.1 made.2).2 :: replies (c.call scheme made.1 made.2).1 rest

end Calls

variable {scheme : Scheme} {c : Cursor}

theorem calls_append (made more : List (Source × Call)) :
    c.calls scheme (made ++ more) = (c.calls scheme made).calls scheme more :=
  List.foldl_append

theorem calls_concat (made : List (Source × Call)) (s : Source) (m : Call) :
    c.calls scheme (made ++ [(s, m)]) = ((c.calls scheme made).call scheme s m).1 :=
  calls_append made [(s, m)]

theorem replies_concat (made : List (Source × Call)) (s : Source) (m : Call) :
    c.replies scheme (made ++ [(s, m)]) =
      c.replies scheme made ++ [((c.calls scheme made).call scheme s m).2] := by
  induction made generalizing c with
  | nil => rfl
  | cons first rest ih => exact congrArg _ ih

theorem error?_finish (c : Cursor) : c.finish.error? = c.error? := by
  unfold finish error?
  cases c.state <;> rfl

theorem error?_failWith (c : Cursor) (e : StoreError) : (c.failWith e).error? = some e :=
  error?_finish _

theorem isOver_of_error? {e : StoreError} (h : c.error? = some e) : c.isOver = true := by
  unfold error? at h
  unfold isOver
  cases hstate : c.state <;> simp [hstate] at h ⊢

theorem error?_of_not_isOver (h : c.isOver = false) : c.error? = none := by
  unfold isOver at h
  unfold error?
  cases hstate : c.state <;> simp [hstate] at h ⊢

theorem error?_of_key? (h : c.key?.isSome = true) : c.error? = none := by
  unfold key? at h
  unfold error?
  cases hstate : c.state <;> simp [hstate] at h ⊢

theorem query?_next_eq_some_iff {q : Query} :
    c.query? scheme .next = some q ↔
      ∃ page, c.nextStep.question? = some page ∧ q = .page page.1 page.2 := by
  simp [query?, eq_comm]

/-- What one call can do. All that is proved about calls rests on this list. -/
inductive Turn (scheme : Scheme) (c : Cursor) (s : Source) : Call → Cursor × Reply → Prop
  | looked {m : Call} {reply : Reply} (hm : m ≠ .next) (hreply : ¬ reply.Spoils) :
      Turn scheme c s m (c, reply)
  | nowhere (hkey : c.key? = none) : Turn scheme c s .value
      (c, .value (.error (.unsupported "value of an unpositioned iterator")))
  | unreadable {e : StoreError} (hkey : c.key?.isSome = true) :
      Turn scheme c s .value (c.failWith e, .value (.error e))
  | stopped (hover : c.isOver = true) : Turn scheme c s .next (c, .moved false)
  | unscanned {lower : Bytes} {limit : Nat} {e : StoreError}
      (hquery : c.query? scheme .next = some (.page lower limit))
      (hscan : s.scan lower limit = .error e) :
      Turn scheme c s .next (c.failWith e, .moved false)
  | came {left : Cursor} (hover : c.isOver = false)
      (hscan : ∀ lower limit, c.query? scheme .next = some (.page lower limit) →
        ∀ e, s.scan lower limit ≠ .error e)
      (hkey : left.key?.isSome = true) : Turn scheme c s .next (left, .moved true)
  | ended (hover : c.isOver = false)
      (hscan : ∀ lower limit, c.query? scheme .next = some (.page lower limit) →
        ∀ e, s.scan lower limit ≠ .error e)
      {left : Cursor} (hend : left.isOver = true) (herror : left.error? = none) :
      Turn scheme c s .next (left, .moved false)
  | released : Turn scheme c s .release (c.finish, .released)

/-- Going forward on the page that a cursor has or has read, it comes to a key or to an end. -/
theorem turn_of_advance {s : Source} (turned : Cursor) (hover : c.isOver = false)
    (hscan : ∀ lower limit, c.query? scheme .next = some (.page lower limit) →
      ∀ e, s.scan lower limit ≠ .error e)
    (hturned : turned.isOver = false) :
    Turn scheme c s .next (turned.advance.1, .moved turned.advance.2) := by
  rcases turned.advance_cases with ⟨key, rest, _, _, hadvance⟩ | ⟨_, hadvance⟩
  · rw [hadvance]
    exact .came hover hscan rfl
  · rw [hadvance]
    refine .ended hover hscan turned.finish_isOver ?_
    rw [error?_finish, error?_of_not_isOver hturned]

theorem turn (scheme : Scheme) (c : Cursor) (s : Source) (m : Call) :
    Turn scheme c s m (c.call scheme s m) := by
  cases m with
  | next =>
    show Turn scheme c s .next ((c.next s.scan).1, .moved (c.next s.scan).2)
    unfold next
    rcases c.nextStep_cases with
      ⟨hover, hstep⟩ | ⟨hover, _, hstep⟩ | ⟨lower, hover, _, _, hstep⟩
    · rw [hstep]
      exact .stopped hover
    · rw [hstep]
      have hnone : c.query? scheme .next = none := by
        simp only [query?, hstep]
        rfl
      exact turn_of_advance c hover (fun _ _ hquery => by cases hnone.symm.trans hquery) hover
    · have hquery : c.query? scheme .next = some (.page lower c.pageSize) := by
        rw [query?, hstep]
        rfl
      rw [hstep, Step.answered]
      cases hscan : s.scan lower c.pageSize with
      | error e => exact .unscanned hquery hscan
      | ok page =>
        refine turn_of_advance (c.turnTo page) hover (fun _ _ hother e hfails => ?_) hover
        cases hquery.symm.trans hother
        cases hscan.symm.trans hfails
  | key => exact .looked (by decide) (fun h => h)
  | error => exact .looked (by decide) (fun h => h)
  | release => exact .released
  | value =>
    show Turn scheme c s .value ((c.value scheme s.read).1, .value (c.value scheme s.read).2)
    cases hkey : c.key? with
    | none =>
      rw [value_of_none hkey]
      exact .nowhere hkey
    | some key =>
      rw [value_of_key hkey]
      cases (readStep scheme key).answered s.read with
      | ok value => exact .looked (by decide) (fun h => h)
      | error e => exact .unreadable (by rw [hkey]; rfl)

section Turn

variable {s : Source} {m : Call} {left : Cursor} {reply : Reply}

/-- A call leaves a cursor at a key if it comes to one, or if it was at one and stays. -/
theorem Turn.key? (h : Turn scheme c s m (left, reply)) :
    left.key?.isSome = true ↔ reply = .moved true ∨ (¬ reply.Spoils ∧ c.key?.isSome = true) := by
  cases h with
  | looked hm hreply =>
    have hstays : reply ≠ .moved true := by
      rintro rfl
      exact hreply trivial
    simp [hstays, hreply]
  | nowhere hkey => simp [hkey]
  | unreadable | unscanned => simp [failWith, key?_finish, Reply.Spoils]
  | stopped hover => simp [key?_of_isOver hover, Reply.Spoils]
  | came hover hscan hkey => simp [hkey]
  | ended hover hscan hend => simp [key?_of_isOver hend, Reply.Spoils]
  | released => simp [key?_finish, Reply.Spoils]

/-- A cursor that is done stays so. -/
theorem Turn.isOver (h : Turn scheme c s m (left, reply)) (hover : c.isOver = true) :
    left.isOver = true := by
  cases h with
  | looked | nowhere | stopped => exact hover
  | unreadable | unscanned | released => exact finish_isOver _
  | came hopen | ended hopen => cases hopen.symm.trans hover

theorem Turn.isOver_of_ends (h : Turn scheme c s m (left, reply)) (hends : reply.Ends c.key?) :
    left.isOver = true := by
  cases h with
  | looked hm hreply =>
    cases reply with
    | moved found | released => exact absurd trivial hreply
    | value result =>
      cases result with
      | error => exact absurd trivial hreply
      | ok => exact absurd hends id
    | key | error => exact absurd hends id
  | nowhere hkey =>
    have hat : c.key?.isSome = true := hends
    simp [hkey] at hat
  | stopped hover => exact hover
  | unreadable | unscanned | released => exact finish_isOver _
  | came => exact absurd hends id
  | ended hover hscan hend => exact hend

theorem Turn.error?_kept (h : Turn scheme c s m (left, reply)) {e : StoreError}
    (herror : c.error? = some e) : left.error? = some e := by
  have hover := isOver_of_error? herror
  cases h with
  | looked | nowhere | stopped => exact herror
  | unreadable hkey => simp [key?_of_isOver hover] at hkey
  | unscanned hquery => simp [query?, nextStep_of_isOver hover, Step.question?] at hquery
  | came hopen | ended hopen => cases hopen.symm.trans hover
  | released => rw [error?_finish, herror]

/-- An error comes of a page that cannot be read, or of a value that cannot be read at a key. -/
theorem Turn.error?_iff (h : Turn scheme c s m (left, reply)) (hnone : c.error? = none)
    {e : StoreError} :
    left.error? = some e ↔
      (m = .next ∧ ∃ lower limit, c.query? scheme .next = some (.page lower limit) ∧
        s.scan lower limit = .error e) ∨
      (m = .value ∧ c.key?.isSome = true ∧ reply = .value (.error e)) := by
  cases h with
  | looked hm hreply =>
    have hread : reply ≠ .value (.error e) := by
      rintro rfl
      exact hreply trivial
    simp [hnone, hm, hread]
  | nowhere hkey => simp [hnone, hkey]
  | unreadable hkey => simp [error?_failWith, hkey]
  | stopped hover => simp [hnone, query?, nextStep_of_isOver hover, Step.question?]
  | @unscanned lower limit e' hquery hscan =>
    rw [error?_failWith]
    constructor
    · rintro ⟨rfl⟩
      exact Or.inl ⟨rfl, lower, limit, hquery, hscan⟩
    · rintro (⟨_, lower', limit', hquery', hscan'⟩ | ⟨hm, _⟩)
      · cases hquery.symm.trans hquery'
        cases hscan.symm.trans hscan'
        rfl
      · cases hm
  | came hover hscan hkey =>
    simpa [error?_of_key? hkey] using fun lower limit hquery => hscan lower limit hquery e
  | ended hover hscan hend herror =>
    simpa [herror] using fun lower limit hquery => hscan lower limit hquery e
  | released => simp [error?_finish, hnone]

end Turn

theorem query?_of_isOver (hover : c.isOver = true) (m : Call) : c.query? scheme m = none := by
  cases m with
  | next => rw [query?, nextStep_of_isOver hover, Step.question?, Option.map_none]
  | value =>
    rw [query?, valueStep_of_none (key?_of_isOver hover), Step.question?, Option.map_none]
  | key | error | release => rfl

/-- What comes of a call depends on a database only through the answer to what it is asked. -/
theorem call_eq_of_alike {m : Call} {s s' : Source}
    (halike : ∀ q, c.query? scheme m = some q → q.Alike s s') :
    c.call scheme s m = c.call scheme s' m := by
  cases m with
  | next =>
    have hsame : c.next s.scan = c.next s'.scan := by
      refine Step.answered_congr fun page hasks => ?_
      exact halike (.page page.1 page.2) (by rw [query?, hasks]; rfl)
    simp only [call, hsame]
  | value =>
    have hsame : c.value scheme s.read = c.value scheme s'.read := by
      refine Step.answered_congr fun a hasks => ?_
      exact halike (.block a) (by rw [query?, hasks]; rfl)
    simp only [call, hsame]
  | key | error | release => rfl

/-- Only a cursor at a key asks for a block, the one at the address that the key derives to. -/
theorem question?_valueStep {a : Address} (hasks : (c.valueStep scheme).question? = some a) :
    ∃ key, c.key? = some key ∧ scheme.deriveRaw key = .ok a := by
  cases hkey : c.key? with
  | none =>
    rw [valueStep_of_none hkey] at hasks
    cases hasks
  | some key =>
    rw [valueStep_of_key hkey, Step.question?_map] at hasks
    cases hderives : scheme.deriveRaw key with
    | error e =>
      rw [readStep_underived hderives] at hasks
      cases hasks
    | ok found =>
      rw [readStep_derived hderives] at hasks
      cases hasks
      exact ⟨key, rfl, hderives⟩

def Source.failing (e : StoreError) : Source := ⟨fun _ _ => .error e, fun _ => .error e⟩

/-- A call that asks a database shows the failure. -/
theorem error?_call_failing {m : Call} {q : Query} (hquery : c.query? scheme m = some q)
    (e : StoreError) : (c.call scheme (.failing e) m).1.error? = some e := by
  have hopen : c.isOver = false := by
    cases hover : c.isOver with
    | false => rfl
    | true => cases (query?_of_isOver hover m).symm.trans hquery
  refine ((turn scheme c (.failing e) m).error?_iff (error?_of_not_isOver hopen)).2 ?_
  cases m with
  | next =>
    obtain ⟨page, _, rfl⟩ := query?_next_eq_some_iff.1 hquery
    exact Or.inl ⟨rfl, page.1, page.2, hquery, rfl⟩
  | value =>
    obtain ⟨a, hasks, _⟩ := Option.map_eq_some_iff.1 hquery
    obtain ⟨key, hkey, hderives⟩ := question?_valueStep hasks
    refine Or.inr ⟨rfl, by rw [hkey]; rfl, ?_⟩
    simp only [value_of_key hkey, readStep_derived hderives]
    rfl
  | key | error | release => cases hquery

/-- A call asks a database if what comes of it depends on the database. -/
theorem query?_eq_none_iff {m : Call} :
    c.query? scheme m = none ↔ ∀ s s', c.call scheme s m = c.call scheme s' m := by
  constructor
  · intro hnone s s'
    exact call_eq_of_alike fun q hquery => by cases hnone.symm.trans hquery
  · intro hsame
    -- Two databases that fail in different ways would leave different errors behind.
    by_contra hasks
    obtain ⟨q, hquery⟩ := Option.ne_none_iff_exists'.1 hasks
    have hfails := error?_call_failing hquery (.unsupported "")
    rw [hsame _ (.failing (.notFound "")), error?_call_failing hquery] at hfails
    cases hfails

theorem turn_calls (made : List (Source × Call)) (s : Source) (m : Call) :
    Turn scheme (c.calls scheme made) s m (c.calls scheme (made ++ [(s, m)]),
      ((c.calls scheme made).call scheme s m).2) := by
  rw [calls_concat]
  exact turn scheme _ s m

theorem isOver_calls (hover : c.isOver = true) (made : List (Source × Call)) :
    (c.calls scheme made).isOver = true := by
  induction made using List.reverseRecOn with
  | nil => exact hover
  | append_singleton made last ih => exact (turn_calls made last.1 last.2).isOver ih

theorem error?_calls {e : StoreError} (herror : c.error? = some e) (made : List (Source × Call)) :
    (c.calls scheme made).error? = some e := by
  induction made using List.reverseRecOn with
  | nil => exact herror
  | append_singleton made last ih => exact (turn_calls made last.1 last.2).error?_kept ih

theorem key?_calls (hnew : c.key? = none) (made : List (Source × Call)) :
    (c.calls scheme made).key?.isSome = true ↔
      Since (· = .moved true) Reply.Spoils (c.replies scheme made) := by
  -- By the last call: it comes to a key, or keeps the one that the calls before it left.
  induction made using List.reverseRecOn with
  | nil =>
    have hnever : ¬ Since (· = .moved true) Reply.Spoils [] := not_since_nil
    simpa [calls, replies, hnew] using hnever
  | append_singleton made last ih =>
    obtain ⟨s, m⟩ := last
    rw [replies_concat, since_concat, (turn_calls made s m).key?, ih]

/-- What can be said of a cursor after some calls. -/
structure Orderly (scheme : Scheme) (c : Cursor) (made : List (Source × Call)) : Prop where
  /-- The cursor is at a key if the last step came to one, and since then no value could not be
  read and no release has happened. -/
  positioned : (c.calls scheme made).key?.isSome = true ↔
    Since (· = .moved true) Reply.Spoils (c.replies scheme made)
  /-- A step to no key, a failed value at a key and a release are the end: there is no next key,
  and whatever is called, nothing is asked. -/
  ended : ∀ before s m after, made = before ++ (s, m) :: after →
    ((c.calls scheme before).call scheme s m).2.Ends (c.calls scheme before).key? →
    (c.calls scheme made).key? = none ∧
      (∀ later, (c.calls scheme made).call scheme later .next =
        (c.calls scheme made, .moved false)) ∧
      ∀ later, (c.calls scheme made).query? scheme later = none
  /-- An error stays. -/
  kept : ∀ before after e, made = before ++ after → (c.calls scheme before).error? = some e →
    (c.calls scheme made).error? = some e
  /-- A call brings an error if it is a step that cannot read the page it asks for, or a value
  that cannot be read at a key. -/
  cause : ∀ before s m after e, made = before ++ (s, m) :: after →
    (c.calls scheme before).error? = none →
    ((c.calls scheme (before ++ [(s, m)])).error? = some e ↔
      (m = .next ∧ ∃ lower limit,
        (c.calls scheme before).query? scheme .next = some (.page lower limit) ∧
        s.scan lower limit = .error e) ∨
      (m = .value ∧ (c.calls scheme before).key?.isSome = true ∧
        ((c.calls scheme before).call scheme s m).2 = .value (.error e)))
  unpositioned : ∀ s, (c.calls scheme made).key? = none →
    (c.calls scheme made).call scheme s .value = (c.calls scheme made,
      .value (.error (.unsupported "value of an unpositioned iterator")))
  /-- What a call asks is all that its outcome can depend on, and it does depend on it. -/
  asks : ∀ m, (c.calls scheme made).query? scheme m = none ↔
    ∀ s s', (c.calls scheme made).call scheme s m = (c.calls scheme made).call scheme s' m
  heard : ∀ m q s s', (c.calls scheme made).query? scheme m = some q → q.Alike s s' →
    (c.calls scheme made).call scheme s m = (c.calls scheme made).call scheme s' m

/-- A cursor is orderly in whatever way it is called, and whatever the databases answer. -/
theorem orderly_calls (scheme : Scheme) (stem start : Bytes) (pageSize : Nat)
    (made : List (Source × Call)) : Orderly scheme (create stem start pageSize) made where
  positioned := key?_calls rfl made
  ended := by
    rintro before s m after rfl hends
    have hended : ((create stem start pageSize).calls scheme (before ++ [(s, m)])).isOver = true :=
      (turn_calls before s m).isOver_of_ends hends
    have hover : ((create stem start pageSize).calls scheme
        (before ++ (s, m) :: after)).isOver = true := by
      rw [← List.singleton_append, ← List.append_assoc, calls_append]
      exact isOver_calls hended after
    refine ⟨key?_of_isOver hover, fun later => ?_, query?_of_isOver hover⟩
    simp only [call, next_of_isOver hover]
  kept := by
    rintro before after e rfl herror
    rw [calls_append]
    exact error?_calls herror after
  cause := by
    rintro before s m after e rfl hnone
    exact (turn_calls before s m).error?_iff hnone
  unpositioned := by
    intro s hkey
    simp only [call, value_of_none hkey]
  asks m := query?_eq_none_iff
  heard m q s s' hquery halike := by
    refine call_eq_of_alike fun other hother => ?_
    cases hquery.symm.trans hother
    exact halike

end KeyedBlocks.Cursor
