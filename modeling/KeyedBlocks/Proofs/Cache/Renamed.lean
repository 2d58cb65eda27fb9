import KeyedBlocks.Cache.Basic
import Mathlib.Logic.Function.Basic

/-!
A read cache does not look into its keys. Filing its entries under other names, different names for
different keys, changes nothing that it does but the names.
-/
namespace KeyedBlocks

variable {κ μ ν : Type}

def Assoc.rename (f : κ → μ) (entries : List (κ × ν)) : List (μ × ν) :=
  entries.map (Prod.map f id)

def Recency.rename (f : κ → μ) (r : Recency κ) : Recency μ :=
  ⟨r.order.map (Prod.map id f), r.lastStamp⟩

def Held.rename (f : κ → μ) (h : Held κ) : Held μ :=
  ⟨Assoc.rename f h.entries, h.recency.rename f, h.bytes⟩

def ReadCache.rename (f : κ → μ) (c : ReadCache κ) : ReadCache μ :=
  ⟨c.config, c.held.rename f, Assoc.rename f c.inflight, c.stats⟩

namespace Recency

theorem rename_push (f : κ → μ) (r : Recency κ) (key : κ) :
    (r.rename f).push (f key) = (r.push key).rename f := by
  simp [rename, push, nextStamp]

theorem rename_strike (f : κ → μ) (r : Recency κ) (stamp : Nat) :
    (r.rename f).strike stamp = (r.strike stamp).rename f := by
  simp only [rename, strike, List.filter_map]
  rfl

end Recency

variable [DecidableEq κ] [DecidableEq μ] {f : κ → μ} (hf : Function.Injective f)
include hf

namespace Assoc

theorem find?_rename (key : κ) (entries : List (κ × ν)) :
    find? (f key) (rename f entries) = find? key entries := by
  induction entries with
  | nil => rfl
  | cons entry rest ih =>
    obtain ⟨k, v⟩ := entry
    show (if f k = f key then _ else find? (f key) (rename f rest)) = _
    simp only [hf.eq_iff, ih, find?]
    rfl

theorem erase_rename (key : κ) (entries : List (κ × ν)) :
    erase (f key) (rename f entries) = rename f (erase key entries) := by
  simp only [erase, rename, List.filter_map]
  congr 2
  funext entry
  simp [hf.eq_iff]

theorem insert_rename (key : κ) (value : ν) (entries : List (κ × ν)) :
    insert (f key) value (rename f entries) = rename f (insert key value entries) := by
  unfold insert
  rw [erase_rename hf]
  simp [rename]

end Assoc

namespace Held

theorem find?_rename (h : Held κ) (key : κ) : (h.rename f).find? (f key) = h.find? key :=
  Assoc.find?_rename hf key h.entries

theorem remove_rename (h : Held κ) (key : κ) :
    (h.rename f).remove (f key) = (h.remove key).rename f := by
  unfold remove
  rw [find?_rename hf]
  cases h.find? key with
  | none => rfl
  | some entry => simp only [rename, Assoc.erase_rename hf, Recency.rename_strike]

theorem lookup_rename (h : Held κ) (now : Nat) (key : κ) :
    (h.rename f).lookup now (f key) = ((h.lookup now key).1, (h.lookup now key).2.rename f) := by
  unfold lookup
  rw [find?_rename hf]
  cases h.find? key with
  | none => rfl
  | some entry =>
    simp only
    split
    · rw [remove_rename hf]
    · simp only [rename, Recency.rename_strike, Recency.rename_push, ← Assoc.insert_rename hf]
      rfl

theorem dropUntil_rename (need limit : Nat) (order : List (Nat × κ)) (h : Held κ) :
    dropUntil need limit (order.map (Prod.map id f)) (h.rename f) =
      ((dropUntil need limit order h).1, (dropUntil need limit order h).2.rename f) := by
  induction order generalizing h with
  | nil => rfl
  | cons use rest ih =>
    obtain ⟨stamp, key⟩ := use
    simp only [List.map_cons, Prod.map, id, dropUntil, find?_rename hf]
    have hbytes : (h.rename f).bytes = h.bytes := rfl
    rw [hbytes]
    split
    · rfl
    · cases h.find? key with
      | none => exact ih h
      | some entry =>
        have hrest := ih { h with
          entries := Assoc.erase key h.entries
          bytes := h.bytes - entry.value.length }
        simp only [rename, ← Assoc.erase_rename hf] at hrest ⊢
        rw [hrest]

theorem insert_rename (h : Held κ) (key : κ) (value : Bytes) (expiresAt maxBytes : Nat) :
    (h.rename f).insert (f key) value expiresAt maxBytes =
      ((h.insert key value expiresAt maxBytes).1,
        (h.insert key value expiresAt maxBytes).2.rename f) := by
  unfold insert makeRoom
  rw [remove_rename hf]
  have hroom := dropUntil_rename hf value.length maxBytes (h.remove key).recency.order
    (h.remove key)
  have horder : ((h.remove key).rename f).recency.order =
      (h.remove key).recency.order.map (Prod.map id f) := rfl
  simp only [horder, hroom]
  simp only [rename, Recency.rename_push, ← Assoc.insert_rename hf]
  rfl

theorem peek_rename (h : Held κ) (now : Nat) (key : κ) :
    (h.rename f).peek now (f key) = h.peek now key := by
  unfold peek
  rw [find?_rename hf]

end Held

namespace ReadCache

theorem peek_rename (c : ReadCache κ) (now : Nat) (key : κ) :
    (c.rename f).peek now (f key) = c.peek now key :=
  Held.peek_rename hf c.held now key

theorem leader?_rename (c : ReadCache κ) (key : κ) :
    (c.rename f).leader? (f key) = c.leader? key :=
  Assoc.find?_rename hf key c.inflight

theorem consult_rename (c : ReadCache κ) (now : Nat) (call : CallId) (first : Bool) (key : κ) :
    (c.rename f).consult now call first (f key) =
      ((c.consult now call first key).1, (c.consult now call first key).2.rename f) := by
  have hheld : (c.rename f).held.lookup now (f key) =
      ((c.held.lookup now key).1, (c.held.lookup now key).2.rename f) :=
    Held.lookup_rename hf c.held now key
  unfold consult
  rw [hheld]
  rcases c.held.lookup now key with ⟨_ | value, held⟩
  · simp only [leader?_rename hf]
    cases c.leader? key with
    | none => simp only [rename, ← Assoc.insert_rename hf]
    | some leader => rfl
  · rfl

theorem withdraw_rename (c : ReadCache κ) (call : CallId) (key : κ) :
    (c.rename f).withdraw call (f key) = (c.withdraw call key).rename f := by
  unfold withdraw
  rw [leader?_rename hf]
  split
  · simp only [rename, Assoc.erase_rename hf]
  · rfl

theorem hold_rename (c : ReadCache κ) (now : Nat) (key : κ) (value : Bytes) :
    (c.rename f).hold now (f key) value = (c.hold now key value).rename f := by
  have hheld := Held.insert_rename hf c.held key value (now + c.config.ttlMs) c.config.maxBytes
  unfold hold
  have hconfig : (c.rename f).config = c.config := rfl
  have hsame : (c.rename f).held = c.held.rename f := rfl
  rw [hconfig, hsame, hheld]
  split <;> rfl

theorem settle_rename {ε : Type} (c : ReadCache κ) (now : Nat) (call : CallId) (key : κ)
    (result : Except ε Bytes) :
    (c.rename f).settle now call (f key) result = (c.settle now call key result).rename f := by
  unfold settle
  rw [leader?_rename hf]
  split
  · cases result with
    | ok value =>
      simp only
      rw [withdraw_rename hf, hold_rename hf]
    | error e => exact withdraw_rename hf c call key
  · rfl

theorem invalidate_rename (c : ReadCache κ) (key : κ) :
    (c.rename f).invalidate (f key) = (c.invalidate key).rename f := by
  simp only [invalidate, rename, ← Held.remove_rename hf, ← Assoc.erase_rename hf]

omit [DecidableEq κ] [DecidableEq μ] hf in
theorem clear_rename (c : ReadCache κ) : (c.rename f).clear = c.clear.rename f := rfl

end ReadCache

end KeyedBlocks
