import KeyedBlocks.Address.Scheme
import Mathlib.Data.List.Basic
import Mathlib.Data.Nat.Bitwise

/-!
Addresses tell address sources apart. Every layer of an address can be undone: numbers of seven bits
to the byte end where they say, base 32 gives back all bits of whole bytes, and hexadecimal text
gives back its bytes. So one scheme never files two sources under one address.
-/
namespace KeyedBlocks

theorem ofNat_inj {m n : Nat} (hm : m < 256) (hn : n < 256) (h : UInt8.ofNat m = UInt8.ofNat n) :
    m = n := by
  have hvalue := congrArg UInt8.toNat h
  rwa [UInt8.toNat_ofNat', UInt8.toNat_ofNat', Nat.mod_eq_of_lt hm, Nat.mod_eq_of_lt hn] at hvalue

namespace Varint

/-- A number can be told from what follows it. -/
theorem encodeWith_append_inj {f g m n : Nat} {xs ys : Bytes} (hm : m < f) (hn : n < g)
    (h : encodeWith f m ++ xs = encodeWith g n ++ ys) : m = n ∧ xs = ys := by
  induction f generalizing g m n with
  | zero => exact absurd hm (Nat.not_lt_zero m)
  | succ f ih =>
    obtain ⟨g, rfl⟩ : ∃ k, g = k + 1 := ⟨g - 1, by omega⟩
    simp only [encodeWith] at h
    split at h
    · rename_i hsmall
      split at h
      · rename_i hsmall'
        obtain ⟨hhead, hrest⟩ := List.cons.inj h
        exact ⟨ofNat_inj (by omega) (by omega) hhead, hrest⟩
      · have hhead := ofNat_inj (by omega) (by omega) (List.cons.inj h).1
        omega
    · rename_i hlarge
      split at h
      · have hhead := ofNat_inj (by omega) (by omega) (List.cons.inj h).1
        omega
      · obtain ⟨hhead, hrest⟩ := List.cons.inj h
        have hlow := ofNat_inj (by omega) (by omega) hhead
        obtain ⟨hhigh, hxs⟩ := ih (by omega) (by omega) hrest
        have hsame : m = n := by omega
        exact ⟨hsame, hxs⟩

theorem encode_append_inj {m n : Nat} {xs ys : Bytes} (h : encode m ++ xs = encode n ++ ys) :
    m = n ∧ xs = ys :=
  encodeWith_append_inj (Nat.lt_succ_self m) (Nat.lt_succ_self n) h

end Varint

namespace Base32

theorem byteBits_inj {b c : UInt8} (h : byteBits b = byteBits c) : b = c := by
  apply UInt8.toNat_inj.1
  apply Nat.eq_of_testBit_eq
  intro i
  rcases Nat.lt_or_ge i 8 with hlt | hge
  · simp only [byteBits, List.map_cons, List.map_nil, List.cons.injEq] at h
    obtain ⟨h7, h6, h5, h4, h3, h2, h1, h0, _⟩ := h
    match i, hlt with
    | 0, _ => exact h0
    | 1, _ => exact h1
    | 2, _ => exact h2
    | 3, _ => exact h3
    | 4, _ => exact h4
    | 5, _ => exact h5
    | 6, _ => exact h6
    | 7, _ => exact h7
  · have hbound : ∀ x : UInt8, x.toNat.testBit i = false := by
      intro x
      apply Nat.testBit_lt_two_pow
      calc x.toNat < 2 ^ 8 := x.toNat_lt
        _ ≤ 2 ^ i := Nat.pow_le_pow_right (by omega) hge
    rw [hbound b, hbound c]

theorem length_bits (data : Bytes) : (bits data).length = 8 * data.length := by
  induction data with
  | nil => rfl
  | cons b rest ih =>
    simp only [bits, List.flatMap_cons, List.length_append, List.length_cons] at ih ⊢
    have hbyte : (byteBits b).length = 8 := rfl
    omega

theorem bits_inj {xs ys : Bytes} (h : bits xs = bits ys) : xs = ys := by
  induction xs generalizing ys with
  | nil =>
    have hlength := congrArg List.length h
    simp only [length_bits, List.length_nil] at hlength
    exact (List.length_eq_zero_iff.1 (by omega)).symm
  | cons x xs ih =>
    cases ys with
    | nil => cases h
    | cons y ys =>
      obtain ⟨hbyte, hrest⟩ := List.append_inj h rfl
      rw [byteBits_inj hbyte, ih hrest]

/-- The five bits of a number below 32, most significant first. -/
def quintetBits (n : Nat) : List Bool := [4, 3, 2, 1, 0].map n.testBit

theorem quintetBits_quintet (a b c d e : Bool) :
    quintetBits (quintet a b c d e) = [a, b, c, d, e] := by
  cases a <;> cases b <;> cases c <;> cases d <;> cases e <;> rfl

theorem quintet_lt (a b c d e : Bool) : quintet a b c d e < 32 := by
  cases a <;> cases b <;> cases c <;> cases d <;> cases e <;> decide

/-- The groups of five give back all bits, and fewer than five zeros behind them. -/
theorem flatMap_quintets (bs : List Bool) :
    ∃ k < 5, (quintets bs).flatMap quintetBits = bs ++ List.replicate k false := by
  fun_induction quintets bs with
  | case1 => exact ⟨0, by omega, rfl⟩
  | case2 a => exact ⟨4, by omega, by simp [quintetBits_quintet, List.replicate]⟩
  | case3 a b => exact ⟨3, by omega, by simp [quintetBits_quintet, List.replicate]⟩
  | case4 a b c => exact ⟨2, by omega, by simp [quintetBits_quintet, List.replicate]⟩
  | case5 a b c d => exact ⟨1, by omega, by simp [quintetBits_quintet, List.replicate]⟩
  | case6 a b c d e rest ih =>
    obtain ⟨k, hk, hrest⟩ := ih
    exact ⟨k, hk, by simp [quintetBits_quintet, hrest]⟩

theorem quintets_lt {bs : List Bool} {n : Nat} (h : n ∈ quintets bs) : n < 32 := by
  fun_induction quintets bs with
  | case1 => cases h
  | case2 | case3 | case4 | case5 =>
    obtain rfl := List.mem_singleton.1 h
    exact quintet_lt ..
  | case6 a b c d e rest ih =>
    rcases List.mem_cons.1 h with rfl | hmem
    · exact quintet_lt ..
    · exact ih hmem

/-- Whole bytes are determined by their groups of five bits. -/
theorem quintets_bits_inj {xs ys : Bytes} (h : quintets (bits xs) = quintets (bits ys)) :
    xs = ys := by
  obtain ⟨k, hk, hxs⟩ := flatMap_quintets (bits xs)
  obtain ⟨l, hl, hys⟩ := flatMap_quintets (bits ys)
  have hsame : bits xs ++ List.replicate k false = bits ys ++ List.replicate l false := by
    rw [← hxs, ← hys, h]
  have hlengths := congrArg List.length hsame
  simp only [List.length_append, length_bits, List.length_replicate] at hlengths
  have hbits : (bits xs).length = (bits ys).length := by
    simp only [length_bits]
    omega
  exact bits_inj (List.append_inj hsame hbits).1

theorem map_inj_of_leftInverse {value : Char → Nat} {char : Nat → Char}
    (h : ∀ n < 32, value (char n) = n) {xs ys : List Bool}
    (heq : (quintets xs).map char = (quintets ys).map char) : quintets xs = quintets ys := by
  have hback : ∀ bs, ((quintets bs).map char).map value = quintets bs := by
    intro bs
    rw [List.map_map]
    conv_rhs => rw [← List.map_id (quintets bs)]
    exact List.map_congr_left fun n hn => h n (quintets_lt hn)
  rw [← hback xs, ← hback ys, heq]

def lowerValue (c : Char) : Nat := if 97 ≤ c.toNat then c.toNat - 97 else c.toNat - 24

def upperValue (c : Char) : Nat := if 65 ≤ c.toNat then c.toNat - 65 else c.toNat - 24

theorem lowerValue_lowerChar : ∀ n < 32, lowerValue (lowerChar n) = n := by
  decide

theorem upperValue_upperChar : ∀ n < 32, upperValue (upperChar n) = n := by
  decide

theorem lower_inj {xs ys : Bytes} (h : lower xs = lower ys) : xs = ys :=
  quintets_bits_inj (map_inj_of_leftInverse lowerValue_lowerChar h)

theorem upper_inj {xs ys : Bytes} (h : upper xs = upper ys) : xs = ys :=
  quintets_bits_inj (map_inj_of_leftInverse upperValue_upperChar h)

end Base32

namespace Hex

theorem digitChar_inj : ∀ m < 16, ∀ n < 16, digitChar m = digitChar n → m = n := by
  decide

theorem encodeChars_inj {xs ys : Bytes} (h : encodeChars xs = encodeChars ys) : xs = ys := by
  induction xs generalizing ys with
  | nil =>
    cases ys with
    | nil => rfl
    | cons y ys => cases h
  | cons x xs ih =>
    cases ys with
    | nil => cases h
    | cons y ys =>
      simp only [encodeChars, List.cons.injEq] at h
      obtain ⟨hhigh, hlow, hrest⟩ := h
      have hx := x.toNat_lt
      have hy := y.toNat_lt
      have hdiv := digitChar_inj _ (by omega) _ (by omega) hhigh
      have hmod := digitChar_inj _ (by omega) _ (by omega) hlow
      have hbyte : x = y := UInt8.toNat_inj.1 (by omega)
      rw [hbyte, ih hrest]

theorem encode_inj {xs ys : Bytes} (h : encode xs = encode ys) : xs = ys :=
  encodeChars_inj (String.ofList_injective h)

theorem digitChar_ne_slash : ∀ n < 16, digitChar n ≠ '/' := by
  decide

end Hex

theorem Codec.code_inj {c d : Codec} (h : c.code = d.code) : c = d := by
  cases c <;> cases d <;> first | rfl | cases h

theorem HashFunction.code_inj {f g : HashFunction} (h : f.code = g.code) : f = g := by
  cases f <;> cases g <;> first | rfl | cases h

theorem Multihash.encode_inj {m n : Multihash} (h : m.encode = n.encode) : m = n := by
  obtain ⟨f, xs⟩ := m
  obtain ⟨g, ys⟩ := n
  simp only [encode, List.append_assoc] at h
  obtain ⟨hcode, hrest⟩ := Varint.encode_append_inj h
  obtain ⟨_, hpayload⟩ := Varint.encode_append_inj hrest
  rw [HashFunction.code_inj hcode, hpayload]

theorem Multihash.datastoreKey_inj {m n : Multihash} (h : m.datastoreKey = n.datastoreKey) :
    m = n :=
  encode_inj (Base32.upper_inj (String.ofList_injective h))

theorem Cid.encode_inj {c d : Cid} (h : c.encode = d.encode) : c = d := by
  obtain ⟨codec, m⟩ := c
  obtain ⟨other, n⟩ := d
  simp only [encode, List.append_assoc] at h
  obtain ⟨hcode, hrest⟩ := Varint.encode_append_inj (Varint.encode_append_inj h).2
  rw [Codec.code_inj hcode, Multihash.encode_inj hrest]

theorem Cid.text_inj {c d : Cid} (h : c.text = d.text) : c = d :=
  encode_inj (Base32.lower_inj (List.cons.inj (String.ofList_injective h)).2)

theorem Digest.bytes_inj {d e : Digest} (h : d.bytes = e.bytes) : d = e := by
  cases d
  cases e
  cases h
  rfl

namespace Scheme

/-- The address of a source under a scheme, were sources of any length allowed. -/
def place (scheme : Scheme) (source : AddressSource) : Address :=
  match scheme, source with
  | cid codec hash, .digest d => ⟨(⟨codec, .ofDigest hash d⟩ : Cid).text⟩
  | cid _ _, .verbatim raw => ⟨(⟨.raw, ⟨.identity, raw⟩⟩ : Cid).text⟩
  | blockstore hash, .digest d => blockName hash d
  | blockstore _, .verbatim raw => ⟨Hex.encode raw⟩

/-- A scheme can file a source. Only content identifiers have a limit. -/
def Fits (scheme : Scheme) (source : AddressSource) : Prop :=
  ∀ codec hash raw, scheme = cid codec hash → source = .verbatim raw →
    raw.length ≤ Multihash.maxPayload

theorem locate_of_fits {scheme : Scheme} {source : AddressSource} (h : scheme.Fits source) :
    scheme.locate source = .ok (scheme.place source) := by
  cases scheme with
  | blockstore hash => cases source <;> rfl
  | cid codec hash =>
    cases source with
    | digest d => rfl
    | verbatim raw =>
      have hshort := h codec hash raw rfl rfl
      simp only [locate, cidOf, Multihash.identity, Multihash.wrap, hshort, if_true]
      rfl

/-- Beyond its limit a scheme reports that it cannot encode the source. -/
theorem locate_of_not_fits {scheme : Scheme} {source : AddressSource} (h : ¬ scheme.Fits source) :
    ∃ detail, scheme.locate source = .error (.encoding detail) := by
  cases scheme with
  | blockstore hash => exact absurd (fun _ _ _ hcid _ => nomatch hcid) h
  | cid codec hash =>
    cases source with
    | digest d => exact absurd (fun _ _ _ _ hsource => nomatch hsource) h
    | verbatim raw =>
      have hlong : ¬ raw.length ≤ Multihash.maxPayload := by
        intro hshort
        apply h
        intro _ _ other _ hsource
        cases hsource
        exact hshort
      simp only [locate, cidOf, Multihash.identity, Multihash.wrap, hlong, if_false]
      exact ⟨_, rfl⟩

theorem blockName_ne_hex (hash : HashFunction) (d : Digest) (raw : Bytes) :
    blockName hash d ≠ ⟨Hex.encode raw⟩ := by
  intro h
  have htext := congrArg (fun a => a.text.toList) h
  simp only [blockName, Hex.encode, String.toList_append, String.toList_ofList] at htext
  cases raw with
  | nil => simp [Hex.encodeChars] at htext
  | cons b rest =>
    have hslash : Hex.digitChar (b.toNat / 16) = '/' := (List.cons.inj htext).1.symm
    have hbyte := b.toNat_lt
    exact Hex.digitChar_ne_slash _ (by omega) hslash

/-- A scheme that hashes with a function of its own files no two sources under one address. -/
theorem place_inj {scheme : Scheme}
    (hscheme : (∃ codec, scheme = keccakCid codec) ∨ scheme = keccakBlockstore)
    {s t : AddressSource} (h : scheme.place s = scheme.place t) : s = t := by
  rcases hscheme with ⟨codec, rfl⟩ | rfl
  · cases s with
    | digest d =>
      cases t with
      | digest e =>
        have hcid := Cid.text_inj (congrArg Address.text h)
        have hbytes := congrArg (fun c => c.hash.payload) hcid
        rw [Digest.bytes_inj hbytes]
      | verbatim raw =>
        have hcid := Cid.text_inj (congrArg Address.text h)
        cases congrArg (fun c => c.hash.hash) hcid
    | verbatim raw =>
      cases t with
      | digest e =>
        have hcid := Cid.text_inj (congrArg Address.text h)
        cases congrArg (fun c => c.hash.hash) hcid
      | verbatim other =>
        have hcid := Cid.text_inj (congrArg Address.text h)
        have hbytes : raw = other := congrArg (fun c => c.hash.payload) hcid
        rw [hbytes]
  · cases s with
    | digest d =>
      cases t with
      | digest e =>
        have htext := congrArg (fun a => a.text.toList) h
        simp only [keccakBlockstore, place, blockName, String.toList_append] at htext
        have hkey := String.toList_injective (List.append_cancel_left htext)
        have hbytes := congrArg Multihash.payload (Multihash.datastoreKey_inj hkey)
        rw [Digest.bytes_inj hbytes]
      | verbatim raw => exact absurd h (blockName_ne_hex _ d raw)
    | verbatim raw =>
      cases t with
      | digest e => exact absurd h.symm (blockName_ne_hex _ e raw)
      | verbatim other => rw [Hex.encode_inj (congrArg Address.text h)]

end Scheme

end KeyedBlocks
