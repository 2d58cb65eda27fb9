import KeyedBlocks.Relational.Cursor
import KeyedBlocks.Relational.Tables

/-!
Keys in ascending order. A key with a zero byte behind it is the least key above it, and the keys
that begin with one stem lie side by side. What a scan finds is a page of an index: its least keys
from the lower end on, and all of them unless the page is full.
-/
namespace KeyedBlocks

/-- There is no key between a key and its successor. -/
theorem Cursor.successor_le_iff {last key : Bytes} : successor last ≤ key ↔ last < key := by
  induction last generalizing key with
  | nil =>
    cases key with
    | nil => simp [successor]
    | cons b key =>
      have hzero : (0 : UInt8) < b ∨ 0 = b := by
        by_cases hb : b = 0
        · exact Or.inr hb.symm
        · exact Or.inl (UInt8.pos_iff_ne_zero.2 hb)
      simpa [successor, List.cons_le_cons_iff] using hzero
  | cons a last ih =>
    cases key with
    | nil => simp [successor]
    | cons b key =>
      have htail := @ih key
      simp only [successor] at htail
      simp [successor, List.cons_le_cons_iff, List.cons_lt_cons_iff, htail]

/-- The keys of an ascending list are below the successor of the last. -/
theorem Cursor.lt_successor {keys : List Bytes} {last : Bytes} (h : keys.Pairwise (· < ·))
    (hlast : keys.getLast? = some last) : ∀ key ∈ keys, key < successor last := by
  obtain ⟨front, rfl⟩ := List.getLast?_eq_some_iff.1 hlast
  have hself : last < successor last := successor_le_iff.1 (List.le_refl _)
  intro key hmem
  rcases List.mem_append.1 hmem with hearlier | hend
  · exact List.lt_trans ((List.pairwise_append.1 h).2.2 key hearlier last (by simp)) hself
  · obtain rfl := List.mem_singleton.1 hend
    exact hself

namespace KeyOrder

/-- A key between a stem and a key that begins with the stem begins with it as well. -/
theorem stem_of_between {stem key later : Bytes} (hstem : stem ≤ key) (hle : key ≤ later)
    (hlater : stem <+: later) : stem <+: key := by
  induction stem generalizing key later with
  | nil => exact List.nil_prefix
  | cons a stem ih =>
    obtain ⟨rest, rfl⟩ := hlater
    cases key with
    | nil => exact absurd hstem (by simp)
    | cons b key =>
      rw [List.cons_append] at hle
      rcases List.cons_le_cons_iff.1 hstem with hlt | ⟨rfl, htail⟩
      · rcases List.cons_le_cons_iff.1 hle with hgt | ⟨rfl, _⟩
        · exact absurd (Std.lt_trans hlt hgt) (Std.lt_irrefl)
        · exact absurd hlt (Std.lt_irrefl)
      · rcases List.cons_le_cons_iff.1 hle with hgt | ⟨_, hrest⟩
        · exact absurd hgt (Std.lt_irrefl)
        · exact List.cons_prefix_cons.2 ⟨rfl, ih htail hrest (List.prefix_append stem rest)⟩

theorem sort_ascending {keys : List Bytes} (h : keys.Nodup) : (sort keys).Pairwise (· < ·) := by
  have hnodup : (sort keys).Nodup := (sort_perm keys).nodup_iff.2 h
  exact (sort_pairwise keys).imp₂ (fun _ _ => Std.lt_of_le_of_ne) hnodup

theorem nodup_of_ascending {keys : List Bytes} (h : keys.Pairwise (· < ·)) : keys.Nodup := by
  refine List.Pairwise.imp (fun {key other} hlt => ?_) h
  rintro rfl
  exact List.lt_irrefl key hlt

/-- Ascending lists with the same keys are one list. -/
theorem ascending_ext {keys others : List Bytes} (hkeys : keys.Pairwise (· < ·))
    (hothers : others.Pairwise (· < ·)) (h : ∀ key, key ∈ keys ↔ key ∈ others) :
    keys = others := by
  have hperm : keys.Perm others :=
    (List.perm_ext_iff_of_nodup (nodup_of_ascending hkeys) (nodup_of_ascending hothers)).2 h
  refine hperm.eq_of_pairwise (fun a b _ _ hlt hgt => ?_) hkeys hothers
  exact absurd (List.lt_trans hlt hgt) (List.lt_irrefl a)

/-- An ascending list of keys from another one, which has left out only greater keys, is the
beginning of that. -/
theorem prefix_of_ascending {keys all : List Bytes} (hkeys : keys.Pairwise (· < ·))
    (hall : all.Pairwise (· < ·)) (hsub : ∀ key ∈ keys, key ∈ all)
    (hleft : ∀ key ∈ all, key ∈ keys ∨ ∀ earlier ∈ keys, earlier < key) : keys <+: all := by
  refine ⟨all.filter (· ∉ keys), ascending_ext ?_ hall fun key => ?_⟩
  · refine List.pairwise_append.2 ⟨hkeys, hall.filter _, fun earlier hearlier key hkey => ?_⟩
    obtain ⟨hmem, hnot⟩ := List.mem_filter.1 hkey
    exact (hleft key hmem).resolve_left (by simpa using hnot) earlier hearlier
  · by_cases hmem : key ∈ keys
    · simp [hmem, hsub key hmem]
    · simp [hmem]

/-- A page of an index: keys from the lower end on, in order, and every key left out is behind a
full page. -/
structure IsPage (keys : List Bytes) (lower : Bytes) (limit : Nat) (page : List Bytes) : Prop where
  ascending : page.Pairwise (· < ·)
  indexed : ∀ key ∈ page, key ∈ keys
  above : ∀ key ∈ page, lower ≤ key
  rest : ∀ key ∈ keys, lower ≤ key →
    key ∈ page ∨ (page.length = limit ∧ ∀ earlier ∈ page, earlier < key)

theorem mem_sort_from {keys : List Bytes} {lower key : Bytes} :
    key ∈ sort (keys.filter (lower ≤ ·)) ↔ key ∈ keys ∧ lower ≤ key := by
  simp [mem_sort]

theorem isPage_all {keys : List Bytes} (h : keys.Nodup) (lower : Bytes) (limit : Nat) :
    IsPage keys lower limit (sort (keys.filter (lower ≤ ·))) where
  ascending := sort_ascending (h.filter _)
  indexed _ hmem := (mem_sort_from.1 hmem).1
  above _ hmem := (mem_sort_from.1 hmem).2
  rest _ hmem hle := Or.inl (mem_sort_from.2 ⟨hmem, hle⟩)

theorem IsPage.take {keys : List Bytes} {lower : Bytes} {limit : Nat} {page : List Bytes}
    (h : IsPage keys lower limit page) (hall : ∀ key ∈ keys, lower ≤ key → key ∈ page) :
    IsPage keys lower limit (page.take limit) where
  ascending := h.ascending.sublist (List.take_sublist limit page)
  indexed key hmem := h.indexed key (List.mem_of_mem_take hmem)
  above key hmem := h.above key (List.mem_of_mem_take hmem)
  rest key hmem hle := by
    have hpage := hall key hmem hle
    rw [← List.take_append_drop limit page] at hpage
    rcases List.mem_append.1 hpage with htaken | hdropped
    · exact Or.inl htaken
    · have hfull : limit < page.length := by
        rcases Nat.lt_or_ge limit page.length with hlong | hshort
        · exact hlong
        · rw [List.drop_eq_nil_of_le hshort] at hdropped
          exact absurd hdropped List.not_mem_nil
      have hsplit := h.ascending
      rw [← List.take_append_drop limit page] at hsplit
      refine Or.inr ⟨List.length_take_of_le (by omega), fun earlier hearlier => ?_⟩
      exact (List.pairwise_append.1 hsplit).2.2 earlier hearlier key hdropped

end KeyOrder

/-- A scan of an index finds a page of it, for a limit of any size. -/
theorem Tables.scan_isPage {t : Tables} {entries : List (Bytes × Address)}
    (hentries : t.preimages = .rows entries) (hkeys : (entries.map Prod.fst).Nodup)
    (lower : Bytes) (limit : Nat) :
    ∃ page, t.scan lower limit = .ok page ∧
      KeyOrder.IsPage (entries.map Prod.fst) lower limit page := by
  have hall := KeyOrder.isPage_all hkeys lower limit
  have htake := hall.take fun key hmem hle => KeyOrder.mem_sort_from.2 ⟨hmem, hle⟩
  by_cases hlimit : limit < Nat.pow 2 63
  · refine ⟨_, ?_, htake⟩
    simp only [scan, preimageRows, hentries, bind, Except.bind, hlimit, if_true]
    rfl
  · refine ⟨_, ?_, hall⟩
    simp only [scan, preimageRows, hentries, bind, Except.bind, hlimit, if_false]
    rfl

end KeyedBlocks
