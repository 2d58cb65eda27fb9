import KeyedBlocks.Proofs.Address.Injective
import KeyedBlocks.Proofs.Recency.Mapped
import KeyedBlocks.Proofs.Sessions.Deeds
import KeyedBlocks.Proofs.Sessions.Flat

/-!
Keys and batches filed under addresses. Where a scheme can file a key, to act on the address that a
handle or a batch derives is to act on what the key resolves to, and a batch is a flat batch whose
sources have their addresses.
-/
namespace KeyedBlocks

variable {σ τ ρ α : Type}

/-- Two results of one call: the states after it are related and the answers are the same. -/
def Matched (R : σ → τ → Prop) (x : σ × ρ) (y : τ × ρ) : Prop := R x.1 y.1 ∧ x.2 = y.2

namespace KeyForm

def Fits (scheme : Scheme) (k : KeyForm) : Prop :=
  ∀ raw source, k.resolve = .ok (raw, source) → scheme.Fits source

theorem use_matched {R : σ → τ → Prop} {s : σ} {t : τ} (k : KeyForm)
    {act : Bytes → AddressSource → σ × Except StoreError α}
    {other : Bytes → AddressSource → τ × Except StoreError α} (hstate : R s t)
    (hact : ∀ raw source, Matched R (act raw source) (other raw source)) :
    Matched R (k.use s act) (k.use t other) := by
  unfold use
  cases k.resolve with
  | ok found => exact hact found.1 found.2
  | error e => exact ⟨hstate, rfl⟩

/-- To act on what a key resolves to is to act on its address, if the scheme can file it. -/
theorem use_place {scheme : Scheme} {k : KeyForm} (hfits : k.Fits scheme) (s : σ)
    (act : Bytes → Address → σ × Except StoreError α) :
    onFiled s (k.file scheme) act =
      k.use s fun raw source => act raw (scheme.place source) := by
  unfold use
  cases hkey : k.key with
  | error e =>
    rw [resolve, file, fileUnder, hkey]
    rfl
  | ok key =>
    have hresolve : k.resolve = key.source.map (key.raw, ·) := by
      rw [resolve, hkey]
      rfl
    have hfile : k.file scheme = (scheme.derive key).map (key.raw, ·) := by
      rw [file, fileUnder, hkey]
      rfl
    rw [hfile, Scheme.derive]
    cases hsource : key.source with
    | error e =>
      rw [hresolve, hsource]
      rfl
    | ok source =>
      rw [hsource] at hresolve
      have hlocate : (Except.ok source >>= scheme.locate) = .ok (scheme.place source) :=
        Scheme.locate_of_fits (hfits key.raw source hresolve)
      rw [hresolve, hlocate]
      rfl

end KeyForm

theorem Handle.located_form {β : Type} (h : Handle) (s : Site β)
    (act : Bytes → Address → Site β × Except StoreError α) {k : KeyForm}
    (hfits : k.Fits h.scheme) :
    k.through (fun key => h.located s key (act key.raw))
        (fun bytes => classified s bytes fun key => h.located s key (act key.raw)) =
      k.use s fun raw source => act raw (h.scheme.place source) :=
  (h.through_file s k act).trans (KeyForm.use_place hfits s act)

namespace Buffer

theorem put_form {b : Buffer} {k : KeyForm} (hfits : k.Fits b.scheme) (value : Bytes) :
    k.through (fun key => b.put key value) (fun bytes => b.putRaw bytes value) =
      k.use b fun raw source => b.addPut value raw (b.scheme.place source) :=
  (b.put_file k value).trans (KeyForm.use_place hfits b (b.addPut value))

theorem delete_form {b : Buffer} {k : KeyForm} (hfits : k.Fits b.scheme) :
    k.through b.delete b.deleteRaw =
      k.use b fun raw source => b.addDelete raw (b.scheme.place source) :=
  (b.delete_file k).trans (KeyForm.use_place hfits b b.addDelete)

theorem overflow_map {ν μ : Type} (bucket : Bucket) (g : ν → μ) (dropped : Option (Bytes × ν)) :
    overflow bucket (dropped.map (Prod.map id g)) = overflow bucket dropped := by
  cases dropped <;> rfl

end Buffer

namespace FlatBatch

def file (scheme : Scheme) (b : FlatBatch) : Buffer :=
  ⟨scheme, b.puts.mapValues (Prod.map scheme.place id), b.deletes.mapValues scheme.place,
    b.valueSize⟩

def Filed (scheme : Scheme) (b : Buffer) (c : FlatBatch) : Prop := b = c.file scheme

variable {scheme : Scheme}

theorem create_file (scheme : Scheme) (capacity : Nat) :
    Buffer.create scheme capacity = (create capacity).map (file scheme) := by
  unfold Buffer.create create RecencyMap.create
  split <;> rfl

theorem put_filed (c : FlatBatch) (raw : Bytes) (source : AddressSource) (value : Bytes) :
    Matched (Filed scheme)
      (let (puts, dropped) := (c.file scheme).puts.insert raw (scheme.place source, value)
       ({ c.file scheme with puts, valueSize := c.valueSize + value.length },
          Buffer.overflow .put dropped))
      (c.put raw source value) := by
  have hinsert := c.puts.insert_mapValues (Prod.map scheme.place id) raw (source, value)
  have hputs : (c.file scheme).puts.insert raw (scheme.place source, value) = _ := hinsert
  rw [hputs]
  exact ⟨rfl, Buffer.overflow_map ..⟩

theorem delete_filed (c : FlatBatch) (raw : Bytes) (source : AddressSource) :
    Matched (Filed scheme)
      (let (deletes, dropped) := (c.file scheme).deletes.insert raw (scheme.place source)
       ({ c.file scheme with deletes }, Buffer.overflow .delete dropped))
      (c.delete raw source) := by
  have hinsert := c.deletes.insert_mapValues scheme.place raw source
  have hdeletes : (c.file scheme).deletes.insert raw (scheme.place source) = _ := hinsert
  rw [hdeletes]
  exact ⟨rfl, Buffer.overflow_map ..⟩

theorem putList_file (c : FlatBatch) :
    (c.file scheme).putList.map Prod.snd = c.putBlocks.map (Prod.map scheme.place id) := by
  unfold Buffer.putList putBlocks file
  rw [RecencyMap.toList_mapValues, List.map_map, List.map_map]
  rfl

theorem deleteList_file (c : FlatBatch) :
    (c.file scheme).deleteList.map Prod.snd = c.deleted.map scheme.place := by
  unfold Buffer.deleteList deleted file
  rw [RecencyMap.toList_mapValues, List.map_map, List.map_map]
  rfl

end FlatBatch

end KeyedBlocks
