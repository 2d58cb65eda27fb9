import KeyedBlocks.Proofs.Keys.Layouts

/-!
Headers and preimages are found under their digest. For a preimage it is enough that the digest has
no mark in it. A block number is written in eight bytes of any value, directly before a mark and
behind another one, so the bytes of a header can make up a mark that nobody wrote: inside the
number, where the number takes the first dash of the mark behind it, or where the digest takes the
last one. Such a header is not found under its digest, and every other one is.
-/
namespace KeyedBlocks

/-- The eight bytes of a block number, most significant first. -/
def blockNumber (n : UInt64) : Bytes :=
  ([56, 48, 40, 32, 24, 16, 8, 0] : List UInt64).map fun shift => (n >>> shift).toUInt8

example : blockNumber 0x0102030405060708 = [1, 2, 3, 4, 5, 6, 7, 8] := by decide

theorem length_blockNumber (n : UInt64) : (blockNumber n).length = 8 :=
  List.length_map _

namespace Key

variable {n : UInt64} {d : Digest}

/-- No mark comes about around the number of a header, or around the dash before its digest. -/
structure Clear (n : UInt64) (d : Digest) : Prop where
  number_parts : ¬ partMark <:+: blockNumber n ++ [dash]
  number_first : ¬ numberMark <:+: blockNumber n ++ [dash]
  digest_front : ¬ partMark.tail <+: d.bytes

instance : Decidable (Clear n d) :=
  decidable_of_iff
    (¬ partMark <:+: blockNumber n ++ [dash] ∧ ¬ numberMark <:+: blockNumber n ++ [dash] ∧
      ¬ partMark.tail <+: d.bytes)
    ⟨fun ⟨hparts, hfirst, hfront⟩ => ⟨hparts, hfirst, hfront⟩,
      fun h => ⟨h.number_parts, h.number_first, h.digest_front⟩⟩

/-- A header is clear if the only marks in it are the ones that divide it. -/
theorem clear_iff (hone : ¬ partMark <:+: d.bytes) :
    Clear n d ↔ ¬ partMark <:+: blockNumber n ++ numberMark ++ d.bytes ∧
      Bytes.FirstBehind numberMark (blockNumber n) := by
  rw [partMark_infix_iff, firstBehind_numberMark_iff]
  constructor
  · rintro ⟨hparts, hfirst, hfront⟩
    refine ⟨?_, hfirst⟩
    rintro (hnumber | hdigest | hinside)
    · exact hparts hnumber
    · exact hfront hdigest
    · exact hone hinside
  · rintro ⟨hparts, hfirst⟩
    exact ⟨fun h => hparts (Or.inl h), hfirst, fun h => hparts (Or.inr (Or.inl h))⟩

theorem classify_header (hone : ¬ partMark <:+: d.bytes) (hlast : ¬ numberMark <:+: d.bytes)
    (hclear : Clear n d) :
    classify (headerRaw (blockNumber n) d.bytes) =
      .ok ⟨headerRaw (blockNumber n) d.bytes, .header headerTag [blockNumber n, d.bytes]⟩ := by
  obtain ⟨hparts, hfirst⟩ := (clear_iff hone).1 hclear
  refine classify_eq_ok_iff.2 ⟨_, KeyClass.ofRaw_eq_header_iff.2
    ⟨rfl, blockNumber n ++ numberMark ++ d.bytes, ?_, ?_⟩, rfl⟩
  · exact (Bytes.splitOn_eq_pair_iff (by decide)).2 ⟨rfl, by decide, hparts⟩
  · exact (Bytes.splitOn_eq_pair_iff (by decide)).2 ⟨rfl, hfirst, hlast⟩

theorem classify_preimage (hone : ¬ partMark <:+: d.bytes) :
    classify (preimageRaw d.bytes) = .ok ⟨preimageRaw d.bytes, .preimage d.bytes⟩ := by
  refine classify_eq_ok_iff.2 ⟨_, KeyClass.ofRaw_eq_preimage_iff.2 ?_, rfl⟩
  exact (Bytes.splitOn_eq_pair_iff (by decide)).2 ⟨rfl, by decide, hone⟩

/-- A header that is not clear is not found under its digest: the parts that it falls into instead
are not long enough to have the digest among them. -/
theorem Clear.of_resolvesTo (hone : ¬ partMark <:+: d.bytes) (hlast : ¬ numberMark <:+: d.bytes)
    (h : ResolvesTo (headerRaw (blockNumber n) d.bytes) d) : Clear n d := by
  rw [clear_iff hone]
  rcases resolvesTo_iff_kind.1 h with ⟨hhashed, _⟩ | ⟨tag, number, more, hheader⟩ | hpreimage
  · refine absurd ?_ (KeyClass.ofRaw_eq_hashed_iff.1 hhashed).1
    exact ⟨headerTag, blockNumber n ++ numberMark ++ d.bytes, rfl⟩
  · obtain ⟨_, second, hparts, hnumber⟩ := KeyClass.ofRaw_eq_header_iff.1 hheader
    obtain ⟨hraw, _, htwo⟩ := (Bytes.splitOn_eq_pair_iff (by decide)).1 hparts
    obtain rfl := List.append_cancel_left hraw
    refine ⟨htwo, ?_⟩
    cases more with
    | nil =>
      obtain ⟨hsecond, hfirst, _⟩ := (Bytes.splitOn_eq_pair_iff (by decide)).1 hnumber
      have hsame := List.append_cancel_right (List.append_cancel_right hsecond)
      exact hsame ▸ hfirst
    | cons third more =>
      -- A second number mark behind the digest would have to stand inside of it.
      obtain ⟨rest, hsecond, _, hrest⟩ := (Bytes.splitOn_eq_cons_cons_iff (by decide)).1 hnumber
      obtain ⟨rest, rfl, _, _⟩ := (Bytes.splitOn_eq_cons_cons_iff (by decide)).1 hrest
      have hlengths := congrArg List.length hsecond
      have hmark : numberMark.length = 5 := rfl
      have hdigest : d.bytes.length = 32 := d.length_eq
      simp only [List.length_append, length_blockNumber] at hlengths
      have hbehind : numberMark ++ rest <:+ blockNumber n ++ numberMark ++ d.bytes := by
        rw [hsecond, List.append_assoc d.bytes, ← List.append_assoc _ d.bytes]
        exact List.suffix_append ..
      have hinside : numberMark ++ rest <:+ d.bytes := by
        refine List.suffix_of_suffix_length_le hbehind (List.suffix_append ..) ?_
        rw [List.length_append]
        omega
      exact absurd ((List.prefix_append ..).isInfix.trans hinside.isInfix) hlast
  · obtain ⟨hraw, _⟩ := (Bytes.splitOn_eq_pair_iff (by decide)).1
      (KeyClass.ofRaw_eq_preimage_iff.1 hpreimage)
    cases hraw

/-- Where a preimage and a header of a digest are found. -/
structure AddressesHash (n : UInt64) (d : Digest) : Prop where
  preimage : classify (preimageRaw d.bytes) = .ok ⟨preimageRaw d.bytes, .preimage d.bytes⟩
  preimage_resolves : ResolvesTo (preimageRaw d.bytes) d
  preimage_address : ∀ scheme : Scheme,
    scheme.deriveRaw (preimageRaw d.bytes) = scheme.deriveRaw d.bytes ∧
      scheme.deriveRaw (preimageRaw d.bytes) = scheme.derive (.ofDigest d)
  header : Clear n d → classify (headerRaw (blockNumber n) d.bytes) =
    .ok ⟨headerRaw (blockNumber n) d.bytes, .header headerTag [blockNumber n, d.bytes]⟩
  header_address : Clear n d → ∀ scheme : Scheme,
    scheme.deriveRaw (headerRaw (blockNumber n) d.bytes) = scheme.deriveRaw d.bytes ∧
      scheme.deriveRaw (headerRaw (blockNumber n) d.bytes) = scheme.derive (.ofDigest d)
  /-- A header that is not clear is found elsewhere, if at all. -/
  header_resolves : ResolvesTo (headerRaw (blockNumber n) d.bytes) d ↔ Clear n d

/-- A preimage is found under a digest without marks, and a header just if it is clear. -/
theorem addressesHash (n : UInt64) (d : Digest) (hone : ¬ partMark <:+: d.bytes)
    (hlast : ¬ numberMark <:+: d.bytes) : AddressesHash n d := by
  have hbare : ResolvesTo d.bytes d := resolvesTo_iff_layout.2 (.bare hone)
  have hpreimage : ResolvesTo (preimageRaw d.bytes) d := resolvesTo_iff_layout.2 (.preimage hone)
  have hheader : Clear n d → ResolvesTo (headerRaw (blockNumber n) d.bytes) d := by
    intro hclear
    obtain ⟨hparts, hfirst⟩ := (clear_iff hone).1 hclear
    exact resolvesTo_iff_layout.2 (.header hparts hfirst hlast)
  have hsame : ∀ {raw}, ResolvesTo raw d → ∀ scheme : Scheme,
      scheme.deriveRaw raw = scheme.deriveRaw d.bytes ∧
        scheme.deriveRaw raw = scheme.derive (.ofDigest d) := by
    intro raw hraw scheme
    rw [Scheme.deriveRaw_of_resolvesTo hraw, Scheme.deriveRaw_of_resolvesTo hbare]
    exact ⟨rfl, rfl⟩
  exact
    { preimage := classify_preimage hone
      preimage_resolves := hpreimage
      preimage_address := hsame hpreimage
      header := classify_header hone hlast
      header_address := fun hclear => hsame (hheader hclear)
      header_resolves := ⟨Clear.of_resolvesTo hone hlast, hheader⟩ }

/-- The header of block 42 with a digest of one byte repeated is clear. -/
theorem addressesHash_forty_two :
    AddressesHash 42 ⟨List.replicate 32 0x11, rfl⟩ ∧ Clear 42 ⟨List.replicate 32 0x11, rfl⟩ :=
  ⟨addressesHash 42 ⟨List.replicate 32 0x11, rfl⟩ (by decide) (by decide), by decide⟩

/-- A digest that begins like a part mark behind its dash shares the dash of the number mark. -/
theorem not_all_headers_resolve :
    ¬ ∀ (n : UInt64) (d : Digest), ¬ partMark <:+: d.bytes → ¬ numberMark <:+: d.bytes →
      ResolvesTo (headerRaw (blockNumber n) d.bytes) d := by
  intro hall
  have hone : ¬ partMark <:+: partMark.tail ++ List.replicate 28 0 := by decide
  have hlast : ¬ numberMark <:+: partMark.tail ++ List.replicate 28 0 := by decide
  have hclear := Clear.of_resolvesTo hone hlast
    (hall 0 ⟨partMark.tail ++ List.replicate 28 0, rfl⟩ hone hlast)
  exact hclear.digest_front (List.prefix_append ..)

end Key

end KeyedBlocks
