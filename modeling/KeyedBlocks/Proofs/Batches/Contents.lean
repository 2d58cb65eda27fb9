import KeyedBlocks.Proofs.Recency.Recent
import KeyedBlocks.Proofs.Sessions.Deeds

/-!
What a batch has pending. It is told by the log of the deeds that were buffered in it since it was
empty: each bucket has the keys that were last named there, as many as it has room for, and with
each key what was buffered for it last. A key that is no more pending was named in a warning.
-/
namespace KeyedBlocks

namespace Deed

def bucket : Deed → Bucket
  | .put .. => .put
  | .delete .. => .delete

def key : Deed → Bytes
  | .put raw .. | .delete raw _ => raw

def address : Deed → Address
  | .put _ a _ | .delete _ a => a

/-- The address of a deed is the one that its key derives to. -/
def FiledBy (scheme : Scheme) : Deed → Prop
  | .put raw a _ | .delete raw a => scheme.deriveRaw raw = .ok a

def pendingPut? : Deed → Option (Bytes × Address × Bytes)
  | .put raw a value => some (raw, a, value)
  | .delete .. => none

def pendingDelete? : Deed → Option (Bytes × Address)
  | .put .. => none
  | .delete raw a => some (raw, a)

end Deed

/-- All puts of a log, with those that were replaced later. -/
def putsOf (log : List Deed) : List (Bytes × Address × Bytes) := log.filterMap Deed.pendingPut?

def deletesOf (log : List Deed) : List (Bytes × Address) := log.filterMap Deed.pendingDelete?

/-- The keys that a log names in a bucket, in the order of the deeds. -/
def keysOf (log : List Deed) : Bucket → List Bytes
  | .put => (putsOf log).map Prod.fst
  | .delete => (deletesOf log).map Prod.fst

section Log

variable {log : List Deed} {raw : Bytes} {a : Address} {value : Bytes}

theorem putsOf_concat_put :
    putsOf (log ++ [.put raw a value]) = putsOf log ++ [(raw, a, value)] :=
  List.filterMap_append

theorem putsOf_concat_delete : putsOf (log ++ [.delete raw a]) = putsOf log :=
  List.filterMap_append.trans (List.append_nil _)

theorem deletesOf_concat_put : deletesOf (log ++ [.put raw a value]) = deletesOf log :=
  List.filterMap_append.trans (List.append_nil _)

theorem deletesOf_concat_delete :
    deletesOf (log ++ [.delete raw a]) = deletesOf log ++ [(raw, a)] :=
  List.filterMap_append

theorem mem_putsOf : (raw, a, value) ∈ putsOf log ↔ .put raw a value ∈ log := by
  unfold putsOf
  rw [List.mem_filterMap]
  constructor
  · rintro ⟨deed, hmem, hput⟩
    cases deed with
    | put other b new =>
      cases hput
      exact hmem
    | delete => cases hput
  · exact fun hmem => ⟨_, hmem, rfl⟩

theorem mem_deletesOf : (raw, a) ∈ deletesOf log ↔ .delete raw a ∈ log := by
  unfold deletesOf
  rw [List.mem_filterMap]
  constructor
  · rintro ⟨deed, hmem, hdelete⟩
    cases deed with
    | put => cases hdelete
    | delete other b =>
      cases hdelete
      exact hmem
  · exact fun hmem => ⟨_, hmem, rfl⟩

end Log

namespace Buffer

def keys (b : Buffer) : Bucket → List Bytes
  | .put => b.putList.map Prod.fst
  | .delete => b.deleteList.map Prod.fst

def add (b : Buffer) : Deed → Buffer × Except StoreError Unit
  | .put raw a value => b.addPut value raw a
  | .delete raw a => b.addDelete raw a

/-- What a batch of a handle has pending is what is left of a log. -/
structure Holds (b : Buffer) (h : Handle) (log : List Deed) : Prop where
  scheme : b.scheme = h.scheme
  putRoom : b.puts.capacity = h.batchCapacity
  deleteRoom : b.deletes.capacity = h.batchCapacity
  puts : b.puts.Recalls (putsOf log)
  deletes : b.deletes.Recalls (deletesOf log)

variable {b : Buffer} {h : Handle} {log : List Deed}

theorem create_ok {scheme : Scheme} {capacity : Nat} (hcreate : create scheme capacity = .ok b) :
    ∃ puts deletes, RecencyMap.create capacity = .ok puts ∧
      RecencyMap.create capacity = .ok deletes ∧ b = ⟨scheme, puts, deletes, 0⟩ := by
  unfold create at hcreate
  cases hputs : (RecencyMap.create capacity : Except _ (RecencyMap Bytes (Address × Bytes))) with
  | error e =>
    rw [hputs] at hcreate
    cases hcreate
  | ok puts =>
    rw [hputs] at hcreate
    cases hdeletes : (RecencyMap.create capacity : Except _ (RecencyMap Bytes Address)) with
    | error e =>
      rw [hdeletes] at hcreate
      cases hcreate
    | ok deletes =>
      rw [hdeletes] at hcreate
      cases hcreate
      exact ⟨puts, deletes, rfl, rfl, rfl⟩

theorem holds_create (hcreate : h.newBatch = .ok b) : b.Holds h [] := by
  obtain ⟨puts, deletes, hputs, hdeletes, rfl⟩ := create_ok hcreate
  obtain ⟨_, hputRoom, _⟩ := RecencyMap.sound_create hputs
  obtain ⟨_, hdeleteRoom, _⟩ := RecencyMap.sound_create hdeletes
  exact ⟨rfl, hputRoom, hdeleteRoom, RecencyMap.recalls_create hputs,
    RecencyMap.recalls_create hdeletes⟩

theorem Holds.reset (hholds : b.Holds h log) : b.reset.Holds h [] where
  scheme := hholds.scheme
  putRoom := hholds.putRoom
  deleteRoom := hholds.deleteRoom
  puts := hholds.puts.sound.recalls_clear
  deletes := hholds.deletes.sound.recalls_clear

theorem Holds.add (hholds : b.Holds h log) (deed : Deed) :
    (b.add deed).1.Holds h (log ++ [deed]) := by
  cases deed with
  | put raw a value =>
    refine ⟨hholds.scheme, ?_, hholds.deleteRoom, ?_, ?_⟩
    · exact (b.puts.insert_capacity raw (a, value)).trans hholds.putRoom
    · rw [putsOf_concat_put]
      exact hholds.puts.insert raw (a, value)
    · rw [deletesOf_concat_put]
      exact hholds.deletes
  | delete raw a =>
    refine ⟨hholds.scheme, hholds.putRoom, ?_, ?_, ?_⟩
    · exact (b.deletes.insert_capacity raw a).trans hholds.deleteRoom
    · rw [putsOf_concat_delete]
      exact hholds.puts
    · rw [deletesOf_concat_delete]
      exact hholds.deletes.insert raw a

/-- The keys in a bucket are the last ones that the log names there. -/
theorem Holds.keys (hholds : b.Holds h log) (bucket : Bucket) :
    b.keys bucket = recent h.batchCapacity (keysOf log bucket) := by
  cases bucket with
  | put => exact hholds.puts.keys.trans (by rw [hholds.putRoom]; rfl)
  | delete => exact hholds.deletes.keys.trans (by rw [hholds.deleteRoom]; rfl)

theorem Holds.mem_log_of_put (hholds : b.Holds h log) {raw : Bytes} {a : Address} {value : Bytes}
    (hmem : (raw, a, value) ∈ b.putList) : .put raw a value ∈ log := by
  refine mem_putsOf.1 (Assoc.mem_of_mem_ofList ?_)
  unfold putList at hmem
  rw [hholds.puts.entries] at hmem
  exact List.mem_of_mem_drop hmem

theorem Holds.mem_log_of_delete (hholds : b.Holds h log) {raw : Bytes} {a : Address}
    (hmem : (raw, a) ∈ b.deleteList) : .delete raw a ∈ log := by
  refine mem_deletesOf.1 (Assoc.mem_of_mem_ofList ?_)
  unfold deleteList at hmem
  rw [hholds.deletes.entries] at hmem
  exact List.mem_of_mem_drop hmem

/-- The key of a deed is pending once it is buffered. -/
theorem Holds.key_mem_add (hholds : b.Holds h log) (deed : Deed) :
    deed.key ∈ (b.add deed).1.keys deed.bucket := by
  cases deed with
  | put raw a value => exact hholds.puts.sound.mem_keys_insert raw (a, value)
  | delete raw a => exact hholds.deletes.sound.mem_keys_insert raw a

/-- A key that was pending, and is so no more when a deed was buffered, is named in a warning. -/
theorem Holds.warned (hholds : b.Holds h log) {deed : Deed} {key : Bytes} {bucket : Bucket}
    (hold : key ∈ b.keys bucket) (hgone : key ∉ (b.add deed).1.keys bucket) :
    (b.add deed).2 = .error (.evicted bucket (Hex.encode key)) := by
  cases deed with
  | put raw a value =>
    cases bucket with
    | put =>
      obtain ⟨old, hdropped⟩ := hholds.puts.sound.evicted hold hgone
      exact congrArg (overflow .put) hdropped
    | delete => exact absurd hold hgone
  | delete raw a =>
    cases bucket with
    | put => exact absurd hold hgone
    | delete =>
      obtain ⟨old, hdropped⟩ := hholds.deletes.sound.evicted hold hgone
      exact congrArg (overflow .delete) hdropped

end Buffer

end KeyedBlocks
