import KeyedBlocks.RecencyMap

/-!
A bounded map does not look into its values. Changing every value by one function, and leaving keys
and stamps as they are, changes nothing that the map does but the values.
-/
namespace KeyedBlocks

variable {κ ν μ : Type}

def Assoc.mapValues (g : ν → μ) (entries : List (κ × ν)) : List (κ × μ) :=
  entries.map (Prod.map id g)

def RecencyMap.mapValues (g : ν → μ) (m : RecencyMap κ ν) : RecencyMap κ μ :=
  ⟨m.capacity, Assoc.mapValues (Prod.map g id) m.entries, m.recency⟩

variable [DecidableEq κ] (g : ν → μ)

namespace Assoc

theorem find?_mapValues (key : κ) (entries : List (κ × ν)) :
    find? key (mapValues g entries) = (find? key entries).map g := by
  induction entries with
  | nil => rfl
  | cons entry rest ih =>
    obtain ⟨k, v⟩ := entry
    show (if k = key then _ else find? key (mapValues g rest)) = _
    rw [ih]
    by_cases hk : k = key <;> simp [find?, hk]

theorem erase_mapValues (key : κ) (entries : List (κ × ν)) :
    erase key (mapValues g entries) = mapValues g (erase key entries) := by
  simp only [erase, mapValues, List.filter_map]
  rfl

theorem insert_mapValues (key : κ) (value : ν) (entries : List (κ × ν)) :
    insert key (g value) (mapValues g entries) = mapValues g (insert key value entries) := by
  unfold insert
  rw [erase_mapValues]
  simp [mapValues]

end Assoc

namespace RecencyMap

variable (m : RecencyMap κ ν)

theorem slot?_mapValues (key : κ) :
    (m.mapValues g).slot? key = (m.slot? key).map (Prod.map g id) :=
  Assoc.find?_mapValues _ key m.entries

theorem peek_mapValues (key : κ) : (m.mapValues g).peek key = (m.peek key).map g := by
  simp [peek, slot?_mapValues, Function.comp_def]

omit [DecidableEq κ] in
theorem size_mapValues : (m.mapValues g).size = m.size := by
  simp [size, mapValues, Assoc.mapValues]

theorem place_mapValues (key : κ) (value : ν) :
    (m.mapValues g).place key (g value) = (m.place key value).mapValues g := by
  simp only [place, mapValues, ← Assoc.insert_mapValues]
  rfl

theorem popOldest_mapValues :
    (m.mapValues g).popOldest =
      (m.popOldest.1.mapValues g, m.popOldest.2.map (Prod.map id g)) := by
  have horder : (m.mapValues g).recency.order = m.recency.order := rfl
  unfold popOldest
  rw [horder]
  cases m.recency.order with
  | nil => rfl
  | cons use rest =>
    obtain ⟨stamp, key⟩ := use
    simp only [peek_mapValues, Option.map_map]
    simp only [mapValues, ← Assoc.erase_mapValues]
    rfl

theorem insert_mapValues (key : κ) (value : ν) :
    (m.mapValues g).insert key (g value) =
      ((m.insert key value).1.mapValues g, (m.insert key value).2.map (Prod.map id g)) := by
  unfold insert
  rw [slot?_mapValues]
  cases m.slot? key with
  | some entry =>
    obtain ⟨old, stamp⟩ := entry
    simp only [Option.map_some, Option.map_none, Prod.map, id, ← place_mapValues]
    rfl
  | none =>
    have hcapacity : (m.mapValues g).capacity = m.capacity := rfl
    simp only [Option.map_none, size_mapValues, popOldest_mapValues, hcapacity]
    split
    · rw [place_mapValues]
    · rw [place_mapValues]
      rfl

theorem toList_mapValues : (m.mapValues g).toList = m.toList.map (Prod.map id g) := by
  have hkeys : (m.mapValues g).recency.keys = m.recency.keys := rfl
  unfold toList
  rw [hkeys, List.map_filterMap]
  congr 1
  funext key
  rw [peek_mapValues, Option.map_map, Option.map_map]
  rfl

end RecencyMap

end KeyedBlocks
