import KeyedBlocks.Proofs.Batches.Contents
import KeyedBlocks.Proofs.Recency.Unreplaced
import Mathlib.Algebra.GroupWithZero.Nat

/-!
A batch told by the calls that were made on it, however addresses are derived. Its buckets have the
last deeds since it was reset, each bucket those of its own kind, as many keys as there is room for,
and its value size counts all values put since then, those that were replaced or dropped as well. A
call is answered with a warning just if a new key comes to a full bucket, and the warning names the
one key that has gone.
-/
namespace KeyedBlocks

def Deed.value? : Deed → Option Bytes
  | .put _ _ value => some value
  | .delete .. => none

namespace Buffer

/-- A call on a batch. Keys are given with their class or as raw bytes. -/
inductive Call
  | put (k : KeyForm) (value : Bytes)
  | delete (k : KeyForm)
  | reset

def Call.resets : Call → Bool
  | .reset => true
  | .put .. | .delete _ => false

def call (b : Buffer) : Call → Buffer × Except StoreError Unit
  | .put k value => k.through (fun key => b.put key value) fun raw => b.putRaw raw value
  | .delete k => k.through b.delete b.deleteRaw
  | .reset => (b.reset, .ok ())

def calls (b : Buffer) (made : List Call) : Buffer := made.foldl (fun b m => (b.call m).1) b

/-- The pending deeds of a bucket, oldest first. -/
def pending (b : Buffer) : Bucket → List Deed
  | .put => b.putList.map fun entry => .put entry.1 entry.2.1 entry.2.2
  | .delete => b.deleteList.map fun entry => .delete entry.1 entry.2

section Derive

variable (derive : Key → Except KeyError Address)

/-- What a call would buffer, or why its key cannot be filed. -/
def Call.filed? : Call → Option (Except KeyError Deed)
  | .put k value => some ((k.fileUnder derive).map fun found => .put found.1 found.2 value)
  | .delete k => some ((k.fileUnder derive).map fun found => .delete found.1 found.2)
  | .reset => none

def Call.deed? (made : Call) : Option Deed := (made.filed? derive).bind Except.toOption

/-- The deeds that were buffered since the last reset. -/
def logOf (made : List Call) : List Deed :=
  (made.rtakeWhile fun m => !m.resets).filterMap (Call.deed? derive)

def callUnder (b : Buffer) : Call → Buffer × Except StoreError Unit
  | .put k value => k.through (fun key => b.putUnder derive key value) fun raw =>
      b.classified raw fun key => b.putUnder derive key value
  | .delete k => k.through (b.deleteUnder derive) fun raw => b.classified raw (b.deleteUnder derive)
  | .reset => (b.reset, .ok ())

def callsUnder (b : Buffer) (made : List Call) : Buffer :=
  made.foldl (fun b m => (b.callUnder derive m).1) b

end Derive

theorem call_eq_callUnder (b : Buffer) (m : Call) : b.call m = b.callUnder b.scheme.derive m := by
  cases m <;> rfl

variable {derive : Key → Except KeyError Address}

theorem callsUnder_concat (b : Buffer) (made : List Call) (m : Call) :
    b.callsUnder derive (made ++ [m]) = ((b.callsUnder derive made).callUnder derive m).1 :=
  List.foldl_append

theorem logOf_concat_reset (made : List Call) : logOf derive (made ++ [.reset]) = [] := by
  rw [logOf, List.rtakeWhile_concat_neg _ _ _ (by simp [Call.resets])]
  rfl

theorem logOf_concat {m : Call} (h : m.resets = false) (made : List Call) :
    logOf derive (made ++ [m]) = logOf derive made ++ (m.deed? derive).toList := by
  rw [logOf, List.rtakeWhile_concat_pos _ _ _ (by simp [h]), List.filterMap_append, logOf]
  cases hdeed : m.deed? derive <;> simp [hdeed]

def take (b : Buffer) : Except KeyError Deed → Buffer × Except StoreError Unit
  | .ok deed => b.add deed
  | .error e => (b, .error (.ofKeyError e))

theorem callUnder_of_filed (b : Buffer) {m : Call} {filed : Except KeyError Deed}
    (h : m.filed? derive = some filed) : b.callUnder derive m = b.take filed := by
  cases m with
  | put k value =>
    cases h
    refine (b.through_file derive k (b.addPut value)).trans ?_
    cases k.fileUnder derive <;> rfl
  | delete k =>
    cases h
    refine (b.through_file derive k b.addDelete).trans ?_
    cases k.fileUnder derive <;> rfl
  | reset => cases h

theorem ofKeyError_ne_evicted (e : KeyError) (bucket : Bucket) (name : String) :
    StoreError.ofKeyError e ≠ .evicted bucket name := by
  cases e <;> simp [StoreError.ofKeyError]

theorem map_key_pending (b : Buffer) (bucket : Bucket) :
    (b.pending bucket).map Deed.key = b.keys bucket := by
  cases bucket <;> exact List.map_map

/-- A deed comes to a bucket: what is pending there afterwards, and the answer. -/
inductive Joins (capacity : Nat) (before : List Deed) (deed : Deed) :
    List Deed → Except StoreError Unit → Prop
  | fits (hroom : deed.key ∈ before.map Deed.key ∨ before.length < capacity) :
      Joins capacity before deed ((before.filter fun other => other.key ≠ deed.key) ++ [deed])
        (.ok ())
  | evicts {first : Deed} {rest : List Deed} (habsent : deed.key ∉ before.map Deed.key)
      (hfull : before.length = capacity) (hbefore : before = first :: rest) :
      Joins capacity before deed (rest ++ [deed])
        (.error (.evicted deed.bucket (Hex.encode first.key)))

section Joins

variable {capacity : Nat} {before after : List Deed} {deed : Deed} {answer : Except StoreError Unit}
  (h : Joins capacity before deed after answer)
include h

theorem Joins.warns_iff :
    (∃ bucket name, answer = .error (.evicted bucket name)) ↔
      deed.key ∉ before.map Deed.key ∧ before.length = capacity := by
  cases h with
  | fits hroom =>
    constructor
    · rintro ⟨_, _, hanswer⟩
      cases hanswer
    · rintro ⟨habsent, hfull⟩
      rcases hroom with hpresent | hshort
      · exact absurd hpresent habsent
      · omega
  | evicts habsent hfull => exact ⟨fun _ => ⟨habsent, hfull⟩, fun _ => ⟨_, _, rfl⟩⟩

theorem Joins.names {bucket : Bucket} {name : String}
    (hanswer : answer = .error (.evicted bucket name)) :
    bucket = deed.bucket ∧ ∃ oldest rest, before = oldest :: rest ∧
      name = Hex.encode oldest.key ∧ after = rest ++ [deed] := by
  cases h with
  | fits => cases hanswer
  | evicts _ _ hbefore =>
    cases hanswer
    exact ⟨rfl, _, _, hbefore, rfl, rfl⟩

theorem Joins.succeeds (hquiet : ¬ ∃ bucket name, answer = .error (.evicted bucket name)) :
    answer = .ok () ∧
      after = (before.filter fun other => other.key ≠ deed.key) ++ [deed] := by
  cases h with
  | fits => exact ⟨rfl, rfl⟩
  | evicts => exact absurd ⟨_, _, rfl⟩ hquiet

end Joins

theorem joins_of_insertion {ν : Type} {m next : RecencyMap Bytes ν} {key : Bytes} {value : ν}
    {dropped : Option (Bytes × ν)} {bucket : Bucket} {f : Bytes × ν → Deed}
    (hkey : ∀ entry, (f entry).key = entry.1) (hbucket : ∀ entry, (f entry).bucket = bucket)
    (h : m.Insertion key value next dropped) :
    Joins m.capacity (m.toList.map f) (f (key, value)) (next.toList.map f)
      (overflow bucket dropped) := by
  have hkeys : (m.toList.map f).map Deed.key = m.toList.map Prod.fst := by
    rw [List.map_map]
    exact List.map_congr_left fun entry _ => hkey entry
  cases h with
  | fits room entries =>
    have hafter : next.toList.map f =
        ((m.toList.map f).filter fun other => other.key ≠ (f (key, value)).key) ++
          [f (key, value)] := by
      rw [entries, Assoc.insert, List.map_append, Assoc.erase, List.filter_map]
      refine congrArg (· ++ [f (key, value)]) (congrArg _ (List.filter_congr fun entry _ => ?_))
      rw [Function.comp_apply, hkey, hkey]
    rw [hafter]
    refine .fits ?_
    rwa [hkeys, hkey, List.length_map]
  | @evicts first rest absent full before entries =>
    have hafter : next.toList.map f = rest.map f ++ [f (key, value)] := by
      rw [entries, List.map_append]
      rfl
    have hname : overflow bucket (some first) =
        .error (.evicted (f (key, value)).bucket (Hex.encode (f first).key)) := by
      rw [hbucket, hkey]
      rfl
    rw [hafter, hname]
    refine .evicts ?_ ?_ ?_
    · rwa [hkeys, hkey]
    · rwa [List.length_map]
    · rw [before]
      rfl

theorem filter_puts (log : List Deed) :
    log.filter (fun deed => deed.bucket = .put) =
      (putsOf log).map fun entry => .put entry.1 entry.2.1 entry.2.2 := by
  induction log with
  | nil => rfl
  | cons deed rest ih =>
    cases deed with
    | put => exact congrArg _ ih
    | delete => exact ih

theorem filter_deletes (log : List Deed) :
    log.filter (fun deed => deed.bucket = .delete) =
      (deletesOf log).map fun entry => .delete entry.1 entry.2 := by
  induction log with
  | nil => rfl
  | cons deed rest ih =>
    cases deed with
    | put => exact ih
    | delete => exact congrArg _ ih

section Holds

variable {b : Buffer} {h : Handle} {log : List Deed} (hholds : b.Holds h log)
include hholds

theorem Holds.joins (deed : Deed) :
    Joins h.batchCapacity (b.pending deed.bucket) deed ((b.add deed).1.pending deed.bucket)
      (b.add deed).2 := by
  cases deed with
  | put raw a value =>
    have hinsertion := (hholds.puts.sound.insert raw (a, value)).2
    rw [← hholds.putRoom]
    exact joins_of_insertion (f := fun entry => .put entry.1 entry.2.1 entry.2.2)
      (fun _ => rfl) (fun _ => rfl) hinsertion
  | delete raw a =>
    have hinsertion := (hholds.deletes.sound.insert raw a).2
    rw [← hholds.deleteRoom]
    exact joins_of_insertion (f := fun entry => .delete entry.1 entry.2)
      (fun _ => rfl) (fun _ => rfl) hinsertion

/-- The pending deeds of a bucket are the last of those that no later one replaces. -/
theorem Holds.pending (bucket : Bucket) :
    b.pending bucket =
      (unreplaced Deed.key (log.filter fun deed => deed.bucket = bucket)).rtake
        h.batchCapacity := by
  cases bucket with
  | put =>
    have hkey : ∀ entry : Bytes × Address × Bytes,
        (Deed.put entry.1 entry.2.1 entry.2.2).key = Prod.fst entry := fun _ => rfl
    rw [filter_puts, unreplaced_map hkey, ← map_rtake, ← Assoc.ofList_eq_unreplaced,
      ← hholds.putRoom, ← hholds.puts.entries]
    rfl
  | delete =>
    have hkey : ∀ entry : Bytes × Address,
        (Deed.delete entry.1 entry.2).key = Prod.fst entry := fun _ => rfl
    rw [filter_deletes, unreplaced_map hkey, ← map_rtake, ← Assoc.ofList_eq_unreplaced,
      ← hholds.deleteRoom, ← hholds.deletes.entries]
    rfl

end Holds

theorem pending_add_of_ne (b : Buffer) {deed : Deed} {bucket : Bucket} (h : bucket ≠ deed.bucket) :
    (b.add deed).1.pending bucket = b.pending bucket := by
  cases deed <;> cases bucket <;> first | rfl | exact absurd rfl h

theorem valueSize_add (b : Buffer) (deed : Deed) :
    (b.add deed).1.valueSize = b.valueSize + (deed.value?.toList.map List.length).sum := by
  cases deed <;> rfl

/-- What has been made of a new batch by some calls, and how it answers the next one. -/
structure Buffered (derive : Key → Except KeyError Address) (capacity : Nat) (b : Buffer)
    (made : List Call) : Prop where
  /-- A bucket has the last deeds of its own since the reset that no later one replaces. -/
  pending : ∀ bucket, b.pending bucket =
    (unreplaced Deed.key ((logOf derive made).filter fun deed => deed.bucket = bucket)).rtake
      capacity
  /-- All values put since the reset are counted, whatever has become of them. -/
  valueSize : b.valueSize =
    (((logOf derive made).filterMap Deed.value?).map List.length).sum
  /-- A call whose key cannot be filed says so and changes nothing. -/
  refused : ∀ m e, m.filed? derive = some (.error e) →
    b.callUnder derive m = (b, .error (.ofKeyError e))
  /-- A call warns if its key is new to its bucket and the bucket is full. -/
  warns : ∀ m, (∃ bucket name, (b.callUnder derive m).2 = .error (.evicted bucket name)) ↔
    ∃ deed, m.filed? derive = some (.ok deed) ∧ deed.key ∉ b.keys deed.bucket ∧
      (b.pending deed.bucket).length = capacity
  /-- The warning names the key of the oldest deed, which alone has made room for the new one. -/
  names : ∀ m deed bucket name, m.filed? derive = some (.ok deed) →
    (b.callUnder derive m).2 = .error (.evicted bucket name) → bucket = deed.bucket ∧
      ∃ oldest rest, b.pending bucket = oldest :: rest ∧ name = Hex.encode oldest.key ∧
        (b.callUnder derive m).1.pending bucket = rest ++ [deed]
  /-- Without a warning a call succeeds, and at most replaces a deed of its key. -/
  succeeds : ∀ m deed, m.filed? derive = some (.ok deed) →
    (¬ ∃ bucket name, (b.callUnder derive m).2 = .error (.evicted bucket name)) →
    (b.callUnder derive m).2 = .ok () ∧ (b.callUnder derive m).1.pending deed.bucket =
      ((b.pending deed.bucket).filter fun other => other.key ≠ deed.key) ++ [deed]
  /-- The other bucket does not change. -/
  apart : ∀ m deed bucket, m.filed? derive = some (.ok deed) → bucket ≠ deed.bucket →
    (b.callUnder derive m).1.pending bucket = b.pending bucket

theorem holds_callsUnder {h : Handle} {b : Buffer} (hnew : b.Holds h []) (hsize : b.valueSize = 0)
    (derive : Key → Except KeyError Address) (made : List Call) :
    (b.callsUnder derive made).Holds h (logOf derive made) ∧ (b.callsUnder derive made).valueSize =
      (((logOf derive made).filterMap Deed.value?).map List.length).sum := by
  -- By the last call: a reset empties the log, a key that cannot be filed leaves it, a deed is the
  -- next in it.
  induction made using List.reverseRecOn with
  | nil => exact ⟨hnew, hsize⟩
  | append_singleton made m ih =>
    obtain ⟨hholds, hcount⟩ := ih
    rw [callsUnder_concat]
    cases hfiled : m.filed? derive with
    | none =>
      obtain rfl : m = .reset := by
        cases m <;> first | rfl | cases hfiled
      rw [logOf_concat_reset]
      exact ⟨hholds.reset, rfl⟩
    | some filed =>
      have hresets : m.resets = false := by
        cases m <;> first | rfl | cases hfiled
      rw [logOf_concat hresets, Call.deed?, hfiled, callUnder_of_filed _ hfiled]
      cases filed with
      | error e =>
        rw [Option.bind_some, Except.toOption, Option.toList_none, List.append_nil]
        exact ⟨hholds, hcount⟩
      | ok deed =>
        refine ⟨hholds.add deed, ?_⟩
        rw [List.filterMap_append, List.map_append, List.sum_append, ← hcount]
        exact valueSize_add _ deed

/-- Only a call that buffers a deed can warn. -/
theorem filed_of_warning {b : Buffer} {m : Call} {bucket : Bucket} {name : String}
    (h : (b.callUnder derive m).2 = .error (.evicted bucket name)) :
    ∃ deed, m.filed? derive = some (.ok deed) := by
  cases hfiled : m.filed? derive with
  | none => cases m <;> first | cases h | cases hfiled
  | some filed =>
    rw [callUnder_of_filed b hfiled] at h
    cases filed with
    | ok deed => exact ⟨deed, rfl⟩
    | error e => exact absurd (Except.error.inj h) (ofKeyError_ne_evicted e bucket name)

theorem Holds.buffered {h : Handle} {b : Buffer} {made : List Call}
    (hholds : b.Holds h (logOf derive made))
    (hcount : b.valueSize = (((logOf derive made).filterMap Deed.value?).map List.length).sum) :
    Buffered derive h.batchCapacity b made := by
  have hjoins : ∀ {m deed}, m.filed? derive = some (.ok deed) →
      Joins h.batchCapacity (b.pending deed.bucket) deed
        ((b.callUnder derive m).1.pending deed.bucket) (b.callUnder derive m).2 := by
    intro m deed hfiled
    rw [callUnder_of_filed b hfiled]
    exact hholds.joins deed
  refine ⟨hholds.pending, hcount, fun m e hfiled => callUnder_of_filed b hfiled, ?warns, ?names,
    fun m deed hfiled hquiet => (hjoins hfiled).succeeds hquiet, ?apart⟩
  case warns =>
    intro m
    constructor
    · rintro ⟨bucket, name, hwarns⟩
      obtain ⟨deed, hfiled⟩ := filed_of_warning hwarns
      refine ⟨deed, hfiled, ?_⟩
      rw [← map_key_pending]
      exact (hjoins hfiled).warns_iff.1 ⟨bucket, name, hwarns⟩
    · rintro ⟨deed, hfiled, hnew⟩
      rw [← map_key_pending] at hnew
      exact (hjoins hfiled).warns_iff.2 hnew
  case names =>
    intro m deed bucket name hfiled hwarns
    obtain ⟨rfl, hnamed⟩ := (hjoins hfiled).names hwarns
    exact ⟨rfl, hnamed⟩
  case apart =>
    intro m deed bucket hfiled hne
    rw [callUnder_of_filed b hfiled]
    exact b.pending_add_of_ne hne

/-- A batch keeps its scheme, so its own calls are those under what the scheme derives. -/
theorem Holds.calls_eq {h : Handle} {b : Buffer} (hnew : b.Holds h []) (hsize : b.valueSize = 0)
    (made : List Call) : b.calls made = b.callsUnder h.scheme.derive made := by
  induction made using List.reverseRecOn with
  | nil => rfl
  | append_singleton made m ih =>
    have hscheme := (holds_callsUnder hnew hsize h.scheme.derive made).1.scheme
    have hconcat : b.calls (made ++ [m]) = ((b.calls made).call m).1 := List.foldl_append
    rw [hconcat, callsUnder_concat, ih, call_eq_callUnder, hscheme]

/-- However addresses are derived, a batch is what its calls have made of it, and warns just when a
deed has to go. Its own entry points derive them by its scheme. -/
theorem buffered_calls (scheme : Scheme) (capacity : Nat) (hpositive : 0 < capacity) :
    ∃ b, create scheme capacity = .ok b ∧
      (∀ derive made, Buffered derive capacity (b.callsUnder derive made) made) ∧
      ∀ made, b.calls made = b.callsUnder scheme.derive made ∧
        ∀ m, (b.calls made).call m = (b.calls made).callUnder scheme.derive m := by
  have hcreate : create scheme capacity =
      .ok ⟨scheme, .empty capacity, .empty capacity, 0⟩ := by
    simp only [create, RecencyMap.create, if_neg (Nat.ne_of_gt hpositive)]
    rfl
  have hnew : Holds _ ⟨scheme, capacity⟩ [] := holds_create hcreate
  refine ⟨_, hcreate, ?buffered, fun made => ?own⟩
  case buffered =>
    intro derive made
    obtain ⟨hholds, hcount⟩ := holds_callsUnder hnew rfl derive made
    exact hholds.buffered hcount
  case own =>
    have hcalls := hnew.calls_eq rfl made
    refine ⟨hcalls, fun m => ?_⟩
    rw [hcalls, call_eq_callUnder, (holds_callsUnder hnew rfl scheme.derive made).1.scheme]

/-- After a reset the second put drops the first. A key of 33 bytes is refused, and the delete is
apart. -/
def overflowing : List Call :=
  [.put (.raw [3]) [6], .reset, .put (.raw [1]) [7, 7], .put (.raw (List.replicate 33 5)) [8],
    .put (.raw [2]) [9], .delete (.raw [1])]

theorem buffered_overflowing : 0 < 1 ∧ ∃ b, create .keccakBlockstore 1 = .ok b ∧
    Buffered Scheme.keccakBlockstore.derive 1 (b.calls overflowing) overflowing ∧
    (b.calls overflowing).keys .put = [[2]] ∧ (b.calls overflowing).keys .delete = [[1]] ∧
    (b.calls overflowing).valueSize = 3 ∧
    ((b.calls (overflowing.take 4)).call (.put (.raw [2]) [9])).2 =
      .error (.evicted .put "01") := by
  obtain ⟨b, hcreate, hbuffered, hown⟩ := buffered_calls .keccakBlockstore 1 (by decide)
  refine ⟨by decide, b, hcreate, (hown overflowing).1 ▸ hbuffered _ overflowing, ?_⟩
  cases hcreate
  decide

end Buffer

end KeyedBlocks
