import KeyedBlocks.Cache.Basic
import KeyedBlocks.Proofs.Places

/-!
Flat maps, and what whole batches do to them. Puts that are written in order leave the rows of other
keys in their places, and behind them one row for each key put, with the value put last; deletes
take away the rows of their keys. So a batch that was made in part, when it is made as a whole,
comes to the same as if nothing had been made before.
-/
namespace KeyedBlocks

def writeAll {κ : Type} [DecidableEq κ] (rows : List (κ × Bytes)) (puts : List (κ × Bytes)) :
    List (κ × Bytes) :=
  puts.foldl (fun all block => Assoc.insert block.1 block.2 all) rows

def eraseAll {κ : Type} [DecidableEq κ] (rows : List (κ × Bytes)) (deletes : List κ) :
    List (κ × Bytes) :=
  deletes.foldl (fun all a => Assoc.erase a all) rows

def ReadCache.invalidateAll {κ : Type} [DecidableEq κ] (c : ReadCache κ) (deletes : List κ) :
    ReadCache κ :=
  deletes.foldl ReadCache.invalidate c

section Rows

variable {κ : Type} [DecidableEq κ] {rows puts : List (κ × Bytes)} {deletes : List κ}

theorem eraseAll_eq_filter (rows : List (κ × Bytes)) (deletes : List κ) :
    eraseAll rows deletes = rows.filter fun row => row.1 ∉ deletes := by
  induction deletes generalizing rows with
  | nil => exact (List.filter_eq_self.2 fun row _ => by simp).symm
  | cons key rest ih =>
    refine (ih (Assoc.erase key rows)).trans ?_
    rw [Assoc.erase, List.filter_filter]
    refine List.filter_congr fun row _ => ?_
    simp [Bool.and_comm]

theorem writeAll_append (rows front back : List (κ × Bytes)) :
    writeAll rows (front ++ back) = writeAll (writeAll rows front) back :=
  List.foldl_append

theorem writeAll_concat (rows puts : List (κ × Bytes)) (key : κ) (value : Bytes) :
    writeAll rows (puts ++ [(key, value)]) = Assoc.insert key value (writeAll rows puts) :=
  writeAll_append rows puts [(key, value)]

/-- Puts move nothing but the rows of their keys. -/
theorem writeAll_eq (rows puts : List (κ × Bytes)) :
    writeAll rows puts =
      (rows.filter fun row => row.1 ∉ puts.map Prod.fst) ++ writeAll [] puts := by
  induction puts using List.reverseRecOn with
  | nil =>
    have hall : (rows.filter fun row => row.1 ∉ ([] : List (κ × Bytes)).map Prod.fst) = rows :=
      List.filter_eq_self.2 fun row _ => by simp
    rw [hall]
    exact (List.append_nil rows).symm
  | append_singleton puts block ih =>
    obtain ⟨key, value⟩ := block
    have hkeys : (puts ++ [(key, value)]).map Prod.fst = puts.map Prod.fst ++ [key] := by simp
    rw [hkeys, writeAll_concat, writeAll_concat, ih]
    simp only [Assoc.insert, Assoc.erase, List.filter_append, List.filter_filter,
      List.append_assoc]
    congr 1
    refine List.filter_congr fun row _ => ?_
    rw [Bool.eq_iff_iff]
    simp [and_comm]

def untouched (rows puts : List (κ × Bytes)) (deletes : List κ) : List (κ × Bytes) :=
  rows.filter fun row => row.1 ∉ puts.map Prod.fst ∧ row.1 ∉ deletes

/-- A whole batch leaves what depends on the rows that it does not touch, and on nothing else. -/
theorem eraseAll_writeAll_congr {rows rows' : List (κ × Bytes)}
    (h : untouched rows puts deletes = untouched rows' puts deletes) :
    eraseAll (writeAll rows puts) deletes = eraseAll (writeAll rows' puts) deletes := by
  have hsplit : ∀ rows : List (κ × Bytes), eraseAll (writeAll rows puts) deletes =
      untouched rows puts deletes ++ eraseAll (writeAll [] puts) deletes := by
    intro rows
    rw [writeAll_eq, eraseAll_eq_filter, eraseAll_eq_filter, List.filter_append,
      List.filter_filter]
    congr 1
    refine List.filter_congr fun row _ => ?_
    simp [Bool.and_comm]
  rw [hsplit rows, hsplit rows', h]

theorem untouched_erase {key : κ} (h : key ∈ puts.map Prod.fst ∨ key ∈ deletes)
    (rows : List (κ × Bytes)) :
    untouched (Assoc.erase key rows) puts deletes = untouched rows puts deletes := by
  unfold untouched Assoc.erase
  rw [List.filter_filter]
  refine List.filter_congr fun row _ => ?_
  by_cases heq : row.1 = key
  · rcases h with hput | hdelete
    · simp [heq, hput]
    · simp [heq, hdelete]
  · simp [heq]

theorem untouched_insert {key : κ} (h : key ∈ puts.map Prod.fst) (value : Bytes)
    (rows : List (κ × Bytes)) :
    untouched (Assoc.insert key value rows) puts deletes = untouched rows puts deletes := by
  have hrest : untouched (Assoc.erase key rows) puts deletes = untouched rows puts deletes :=
    untouched_erase (Or.inl h) rows
  have hnew : untouched [(key, value)] puts deletes = [] :=
    List.filter_eq_nil_iff.2 fun row hrow => by
      obtain rfl := List.mem_singleton.1 hrow
      simp [h]
  unfold untouched at hnew hrest ⊢
  rw [Assoc.insert, List.filter_append, hnew, hrest, List.append_nil]

/-- Part of a batch touches no more than the batch. -/
theorem untouched_part {written : List (κ × Bytes)} {dropped : List κ}
    (hwritten : written ⊆ puts) (hdropped : dropped ⊆ deletes) (rows : List (κ × Bytes)) :
    untouched (eraseAll (writeAll rows written) dropped) puts deletes =
      untouched rows puts deletes := by
  induction written generalizing rows with
  | nil =>
    induction dropped generalizing rows with
    | nil => rfl
    | cons key rest ih =>
      have hkey : key ∈ deletes := hdropped (List.mem_cons_self ..)
      exact (ih (List.subset_of_cons_subset hdropped) (Assoc.erase key rows)).trans
        (untouched_erase (Or.inr hkey) rows)
  | cons block rest ih =>
    have hblock : block.1 ∈ puts.map Prod.fst :=
      List.mem_map.2 ⟨block, hwritten (List.mem_cons_self ..), rfl⟩
    exact (ih (List.subset_of_cons_subset hwritten) (Assoc.insert block.1 block.2 rows)).trans
      (untouched_insert hblock block.2 rows)

/-- The value put last is found. -/
theorem find?_writeAll_of_last {key : κ} {value : Bytes}
    (h : Since (fun block => block = (key, value)) (fun block => block.1 = key) puts)
    (rows : List (κ × Bytes)) : Assoc.find? key (writeAll rows puts) = some value := by
  induction puts using List.reverseRecOn with
  | nil => exact absurd h not_since_nil
  | append_singleton puts block ih =>
    rw [writeAll_concat]
    rcases since_concat.1 h with rfl | ⟨hother, hbefore⟩
    · exact Assoc.find?_insert_self ..
    · rw [Assoc.find?_insert_of_ne (Ne.symm hother)]
      exact ih hbefore

theorem find?_writeAll_of_not_mem {key : κ} (h : key ∉ puts.map Prod.fst)
    (rows : List (κ × Bytes)) :
    Assoc.find? key (writeAll rows puts) = Assoc.find? key rows := by
  induction puts using List.reverseRecOn with
  | nil => rfl
  | append_singleton puts block ih =>
    rw [List.map_append, List.mem_append, not_or] at h
    obtain ⟨hbefore, hlast⟩ := h
    have hother : key ≠ block.1 := fun heq => hlast (by simp [heq])
    rw [writeAll_concat, Assoc.find?_insert_of_ne hother]
    exact ih hbefore

theorem find?_eraseAll_of_mem {key : κ} (h : key ∈ deletes) (rows : List (κ × Bytes)) :
    Assoc.find? key (eraseAll rows deletes) = none := by
  rw [eraseAll_eq_filter]
  refine Assoc.find?_eq_none_iff.2 fun value hmem => ?_
  have hkept := (List.mem_filter.1 hmem).2
  simp [h] at hkept

theorem find?_eraseAll_of_not_mem {key : κ} (h : key ∉ deletes) (rows : List (κ × Bytes)) :
    Assoc.find? key (eraseAll rows deletes) = Assoc.find? key rows := by
  induction deletes generalizing rows with
  | nil => rfl
  | cons first rest ih =>
    rw [List.mem_cons, not_or] at h
    obtain ⟨hfirst, hrest⟩ := h
    exact (ih hrest (Assoc.erase first rows)).trans (Assoc.find?_erase_of_ne hfirst rows)

end Rows

end KeyedBlocks
