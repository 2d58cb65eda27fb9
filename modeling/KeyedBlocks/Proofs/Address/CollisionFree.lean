import KeyedBlocks.Proofs.Address.Injective

/-!
Addresses do not collide. Two keys have one address under a scheme just if their addresses are
derived from the same digest or from the same bytes, and no address of the one kind of scheme is an
address of the other kind, so that both may share a cache. A datastore name starts with a slash or
is made of hexadecimal digits, and a content identifier is neither: the bits that its version and
its codec begin with make a letter behind `f` within its first four.
-/
namespace KeyedBlocks

namespace Hex

theorem digitChar_lt_g : ∀ n < 16, digitChar n < 'g' := by
  decide

theorem lt_g_of_mem_encodeChars {data : Bytes} {c : Char} (h : c ∈ encodeChars data) : c < 'g' := by
  induction data with
  | nil => cases h
  | cons b rest ih =>
    have hbyte := b.toNat_lt
    simp only [encodeChars, List.mem_cons] at h
    rcases h with rfl | rfl | hrest
    · exact digitChar_lt_g _ (by omega)
    · exact digitChar_lt_g _ (by omega)
    · exact ih hrest

end Hex

namespace Base32

/-- Two bytes have fifteen bits for the first three digits. -/
theorem lower_cons_cons (b c : UInt8) (rest : Bytes) :
    ∃ tail, lower (b :: c :: rest) = (lower [b, c]).take 3 ++ tail :=
  ⟨_, rfl⟩

end Base32

/-- The bytes that a content identifier begins with, and the letter that they make. -/
theorem Codec.front (codec : Codec) :
    ∃ second more, Varint.encode 1 ++ Varint.encode codec.code = 1 :: second :: more ∧
      ∃ letter ∈ (Base32.lower [1, second]).take 3, 'g' ≤ letter := by
  -- It is the third letter.
  cases codec <;> exact ⟨_, _, rfl, _, List.getElem_mem (show 2 < 3 by decide), by decide⟩

/-- A content identifier has a letter that is no hexadecimal digit. -/
theorem Cid.exists_letter (c : Cid) : ∃ letter ∈ c.text.toList, 'g' ≤ letter := by
  obtain ⟨second, more, hfront, letter, hletter, hlate⟩ := c.codec.front
  obtain ⟨tail, hlower⟩ := Base32.lower_cons_cons 1 second (more ++ c.hash.encode)
  refine ⟨letter, ?_, hlate⟩
  simp only [text, encode, hfront, List.cons_append, hlower, String.toList_ofList]
  exact List.mem_cons_of_mem _ (List.mem_append_left _ hletter)

namespace Scheme

/-- A key has an address just if its source fits, and the address is where the source is filed. -/
theorem derive_eq_ok_iff {scheme : Scheme} {key : Key} {a : Address} :
    scheme.derive key = .ok a ↔
      ∃ source, key.source = .ok source ∧ scheme.Fits source ∧ scheme.place source = a := by
  unfold derive
  cases key.source with
  | error e =>
    constructor
    · intro h
      cases h
    · rintro ⟨source, hsource, _⟩
      cases hsource
  | ok source =>
    show scheme.locate source = .ok a ↔ _
    by_cases hfits : scheme.Fits source
    · rw [locate_of_fits hfits]
      constructor
      · intro h
        exact ⟨source, rfl, hfits, Except.ok.inj h⟩
      · rintro ⟨other, hsame, _, rfl⟩
        rw [Except.ok.inj hsame]
    · obtain ⟨detail, hrefused⟩ := locate_of_not_fits hfits
      rw [hrefused]
      constructor
      · intro h
        cases h
      · rintro ⟨other, hsame, hother, _⟩
        cases hsame
        exact absurd hother hfits

theorem derive_ofDigest (scheme : Scheme) (d : Digest) :
    scheme.derive (.ofDigest d) = .ok (scheme.place (.digest d)) := by
  refine derive_eq_ok_iff.2 ⟨.digest d, ?_, ?_, rfl⟩
  · simp only [Key.source, Key.ofDigest, Digest.ofBytes_bytes]
    rfl
  · intro _ _ _ _ hsource
    cases hsource

/-- The digests and the codecs of content identifiers can be told from them. -/
theorem place_digest_iff {codec other : Codec} {d e : Digest} :
    (keccakCid codec).place (.digest d) = (keccakCid other).place (.digest e) ↔
      d = e ∧ codec = other := by
  constructor
  · intro h
    have hcid := Cid.text_inj (congrArg Address.text h)
    have hbytes := congrArg (fun c => c.hash.payload) hcid
    exact ⟨Digest.bytes_inj hbytes, congrArg Cid.codec hcid⟩
  · rintro ⟨rfl, rfl⟩
    rfl

/-- No content identifier is a datastore name. -/
theorem place_cid_ne_blockstore (codec : Codec) (hash other : HashFunction)
    (s t : AddressSource) : (cid codec hash).place s ≠ (blockstore other).place t := by
  intro h
  obtain ⟨c, hc⟩ : ∃ c : Cid, (cid codec hash).place s = ⟨c.text⟩ := by
    cases s <;> exact ⟨_, rfl⟩
  have htext : c.text.toList = ((blockstore other).place t).text.toList := by
    rw [← h, hc]
  cases t with
  | digest d =>
    simp only [place, blockName, Cid.text, String.toList_append, String.toList_ofList] at htext
    exact absurd (List.cons.inj htext).1 (by decide)
  | verbatim raw =>
    obtain ⟨letter, hletter, hlate⟩ := c.exists_letter
    rw [htext] at hletter
    simp only [place, Hex.encode, String.toList_ofList] at hletter
    exact absurd (Hex.lt_g_of_mem_encodeChars hletter) (Char.not_lt.2 hlate)

/-- Keys have one address under a scheme just if their addresses are derived from one source. -/
def Separates (scheme : Scheme) : Prop :=
  ∀ k l a b, scheme.derive k = .ok a → scheme.derive l = .ok b →
    ∃ s t, k.source = .ok s ∧ l.source = .ok t ∧ (a = b ↔ s = t)

theorem separates {scheme : Scheme}
    (hscheme : (∃ codec, scheme = keccakCid codec) ∨ scheme = keccakBlockstore) :
    scheme.Separates := by
  intro k l a b hk hl
  obtain ⟨s, hs, _, rfl⟩ := derive_eq_ok_iff.1 hk
  obtain ⟨t, ht, _, rfl⟩ := derive_eq_ok_iff.1 hl
  refine ⟨s, t, hs, ht, place_inj hscheme, ?_⟩
  rintro rfl
  rfl

end Scheme

/-- How addresses tell apart what they are derived from. -/
structure CollisionFree : Prop where
  /-- A key has an address just if it resolves to a source, which is not too long for an identifier
  that carries it whole. -/
  filed : ∀ (scheme : Scheme) k,
    (∃ a, scheme.derive k = .ok a) ↔ ∃ source, k.source = .ok source ∧ scheme.Fits source
  /-- Neither digests nor literals share a content identifier with one another. -/
  identifiers : ∀ codec, (Scheme.keccakCid codec).Separates
  /-- Nor do they share a datastore name. -/
  names : Scheme.keccakBlockstore.Separates
  /-- The identifier of a digest has both the digest and the codec in it. -/
  digests : ∀ d e codec other,
    (∃ a, (Scheme.keccakCid codec).derive (.ofDigest d) = .ok a) ∧
      ((Scheme.keccakCid codec).derive (.ofDigest d) =
          (Scheme.keccakCid other).derive (.ofDigest e) ↔
        d = e ∧ codec = other)
  /-- A content identifier is never a datastore name, whatever the keys and the hash functions. -/
  apart : ∀ codec hash other k l a b, (Scheme.cid codec hash).derive k = .ok a →
    (Scheme.blockstore other).derive l = .ok b → a ≠ b

/-- Addresses do not collide, within a scheme or across the schemes. -/
theorem collisionFree : CollisionFree where
  filed scheme k := by
    constructor
    · rintro ⟨a, ha⟩
      obtain ⟨source, hsource, hfits, _⟩ := Scheme.derive_eq_ok_iff.1 ha
      exact ⟨source, hsource, hfits⟩
    · rintro ⟨source, hsource, hfits⟩
      exact ⟨_, Scheme.derive_eq_ok_iff.2 ⟨source, hsource, hfits, rfl⟩⟩
  identifiers codec := Scheme.separates (Or.inl ⟨codec, rfl⟩)
  names := Scheme.separates (Or.inr rfl)
  digests d e codec other := by
    rw [Scheme.derive_ofDigest, Scheme.derive_ofDigest]
    refine ⟨⟨_, rfl⟩, ?_⟩
    rw [Except.ok.injEq]
    exact Scheme.place_digest_iff
  apart codec hash other k l a b hk hl := by
    obtain ⟨s, _, _, rfl⟩ := Scheme.derive_eq_ok_iff.1 hk
    obtain ⟨t, _, _, rfl⟩ := Scheme.derive_eq_ok_iff.1 hl
    exact Scheme.place_cid_ne_blockstore codec hash other s t

end KeyedBlocks
