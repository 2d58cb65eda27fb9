import KeyedBlocks.Proofs.Address.CollisionFree
import KeyedBlocks.Proofs.Keys.Parts

/-!
The raw keys that resolve to a digest. They are the digest itself, and the digest behind the marks
of a header or of a preimage, as long as no other mark comes about where the parts meet. Behind the
digest of a header there may even be another number mark and anything after it, which is not looked
at. Any other key has another address.
-/
namespace KeyedBlocks

section Infix

variable {α : Type} {l xs ys : List α} {y : α}

/-- What does not contain `y` lies on one side of it. -/
theorem infix_append_cons_iff (hy : y ∉ l) : l <:+: xs ++ y :: ys ↔ l <:+: xs ∨ l <:+: ys := by
  constructor
  · intro h
    rcases List.infix_append_iff.1 h with hleft | hright | ⟨front, back, rfl, hfront, hback⟩
    · exact Or.inl hleft
    · rcases List.infix_cons_iff.1 hright with hfront | hrest
      · cases l with
        | nil => exact Or.inr List.nil_infix
        | cons a l =>
          obtain rfl := (List.cons_prefix_cons.1 hfront).1
          exact absurd (List.mem_cons_self ..) hy
      · exact Or.inr hrest
    · cases back with
      | nil =>
        rw [List.append_nil]
        exact Or.inl hfront.isInfix
      | cons a back =>
        obtain rfl := (List.cons_prefix_cons.1 hback).1
        exact absurd (List.mem_append_right _ (List.mem_cons_self ..)) hy
  · rintro (hleft | hright)
    · exact hleft.trans (List.prefix_append ..).isInfix
    · exact hright.trans ((List.suffix_cons y ys).trans (List.suffix_append ..)).isInfix

/-- What does not end in `y` lies before it, if it is the last. -/
theorem infix_concat_iff_of_getLast? (hy : l.getLast? ≠ some y) :
    l <:+: xs ++ [y] ↔ l <:+: xs := by
  rw [List.infix_concat_iff, or_iff_right_iff_imp]
  intro hsuffix
  rcases List.suffix_concat_iff.1 hsuffix with rfl | ⟨front, rfl, _⟩
  · exact List.nil_infix
  · exact absurd List.getLast?_concat hy

end Infix

/-- Both marks begin and end with it. -/
def dash : UInt8 := 0x2d

section Marks

variable {number hash rest : Bytes}

/-- A part mark around a number mark shares a dash with it. -/
theorem partMark_infix_iff :
    partMark <:+: number ++ numberMark ++ hash ↔
      partMark <:+: number ++ [dash] ∨ partMark.tail <+: hash ∨ partMark <:+: hash := by
  have hsplit : number ++ numberMark ++ hash =
      (number ++ [dash]) ++ 0x6e :: ([] ++ 0x6d :: ([] ++ 0x62 :: dash :: hash)) := by
    simp [numberMark, dash]
  have hdash : partMark <+: dash :: hash ↔ partMark.tail <+: hash :=
    List.cons_prefix_cons.trans (and_iff_right rfl)
  have hmark : ¬ partMark <:+: [] := by decide
  rw [hsplit, infix_append_cons_iff (y := 0x6e) (by decide),
    infix_append_cons_iff (y := 0x6d) (by decide), infix_append_cons_iff (y := 0x62) (by decide),
    List.infix_cons_iff, hdash, or_iff_right hmark, or_iff_right hmark]

/-- So does a number mark before the one that ends the number. -/
theorem firstBehind_numberMark_iff :
    Bytes.FirstBehind numberMark number ↔ ¬ numberMark <:+: number ++ [dash] := by
  have hsplit : number ++ numberMark.dropLast =
      number ++ [dash] ++ [0x6e] ++ [0x6d] ++ [0x62] := by
    simp [numberMark, dash]
  rw [Bytes.firstBehind_iff (by decide), hsplit, infix_concat_iff_of_getLast? (by decide),
    infix_concat_iff_of_getLast? (by decide), infix_concat_iff_of_getLast? (by decide)]

end Marks

namespace Key

def headerRaw (number hash : Bytes) : Bytes :=
  headerTag ++ partMark ++ (number ++ numberMark ++ hash)

def preimageRaw (hash : Bytes) : Bytes := preimageTag ++ partMark ++ hash

def ResolvesTo (raw : Bytes) (d : Digest) : Prop :=
  ∃ key, classify raw = .ok key ∧ key.source = .ok (.digest d)

inductive Layout (d : Digest) : Bytes → Prop
  | bare (hone : ¬ partMark <:+: d.bytes) : Layout d d.bytes
  | header {number : Bytes} (hparts : ¬ partMark <:+: number ++ numberMark ++ d.bytes)
      (hfirst : Bytes.FirstBehind numberMark number) (hlast : ¬ numberMark <:+: d.bytes) :
      Layout d (headerRaw number d.bytes)
  /-- What comes behind a second number mark is passed over. -/
  | trailed {number rest : Bytes}
      (hparts : ¬ partMark <:+: number ++ numberMark ++ (d.bytes ++ numberMark ++ rest))
      (hfirst : Bytes.FirstBehind numberMark number)
      (hsecond : Bytes.FirstBehind numberMark d.bytes) :
      Layout d (headerRaw number (d.bytes ++ numberMark ++ rest))
  | preimage (hone : ¬ partMark <:+: d.bytes) : Layout d (preimageRaw d.bytes)

variable {raw number hash : Bytes} {d : Digest}

theorem classify_eq_ok_iff {key : Key} :
    classify raw = .ok key ↔ ∃ kind, KeyClass.ofRaw raw = .ok kind ∧ key = ⟨raw, kind⟩ := by
  unfold classify
  cases KeyClass.ofRaw raw with
  | error e => simp [bind, Except.bind]
  | ok kind =>
    simp only [bind, Except.bind, pure, Except.pure, Except.ok.injEq, exists_eq_left']
    exact eq_comm

theorem map_digest_eq_ok_iff :
    (Digest.ofBytes hash).map AddressSource.digest = .ok (.digest d) ↔ hash = d.bytes := by
  rw [← Digest.ofBytes_eq_ok_iff]
  cases Digest.ofBytes hash <;> simp [Except.map]

/-- A key has a digest for its source if it is that digest, or if its class has that digest in it.
-/
theorem source_eq_digest_iff {kind : KeyClass} :
    (⟨raw, kind⟩ : Key).source = .ok (.digest d) ↔
      (kind = .hashed ∧ raw = d.bytes) ∨
      (∃ tag number more, kind = .header tag (number :: d.bytes :: more)) ∨
      kind = .preimage d.bytes := by
  cases kind with
  | literal => simp [source]
  | hashed =>
    simp only [source, map_digest_eq_ok_iff]
    simp
  | header tag parts =>
    rcases parts with _ | ⟨number, _ | ⟨hash, more⟩⟩
    · simp [source]
    · simp [source]
    · simp only [source, map_digest_eq_ok_iff]
      simp
  | preimage remainder =>
    simp only [source, map_digest_eq_ok_iff]
    simp
  | twoPart parts => simp [source]
  | threePart parts => simp [source]

end Key

namespace KeyClass

variable {raw : Bytes}

theorem ofRaw_eq_hashed_iff :
    ofRaw raw = .ok .hashed ↔ ¬ partMark <:+: raw ∧ digestLength ≤ raw.length := by
  constructor
  · intro h
    unfold ofRaw at h
    split at h
    case h_1 part hparts =>
      obtain ⟨rfl, hone⟩ := (Bytes.splitOn_eq_singleton_iff (by decide)).1 hparts
      refine ⟨hone, Nat.le_of_not_lt fun hshort => ?_⟩
      rw [if_pos hshort] at h
      cases h
    case h_2 =>
      split at h
      · cases h
      · split at h <;> cases h
    case h_3 => cases h
    case h_4 => cases h
  · rintro ⟨hone, hlong⟩
    unfold ofRaw
    rw [Bytes.splitOn_of_absent hone]
    exact congrArg Except.ok (if_neg (Nat.not_lt.2 hlong))

theorem ofRaw_eq_header_iff {tag : Bytes} {parts : List Bytes} :
    ofRaw raw = .ok (.header tag parts) ↔
      tag = headerTag ∧ ∃ second, Bytes.splitOn partMark raw = [headerTag, second] ∧
        Bytes.splitOn numberMark second = parts := by
  constructor
  · intro h
    unfold ofRaw at h
    split at h
    case h_1 => split at h <;> cases h
    case h_2 first second hparts =>
      split at h
      case isTrue htag =>
        obtain ⟨rfl, rfl⟩ := KeyClass.header.inj (Except.ok.inj h)
        exact ⟨htag, second, htag ▸ hparts, rfl⟩
      case isFalse => split at h <;> cases h
    case h_3 => cases h
    case h_4 => cases h
  · rintro ⟨rfl, second, hparts, rfl⟩
    unfold ofRaw
    rw [hparts]
    exact if_pos rfl

theorem ofRaw_eq_preimage_iff {remainder : Bytes} :
    ofRaw raw = .ok (.preimage remainder) ↔
      Bytes.splitOn partMark raw = [preimageTag, remainder] := by
  constructor
  · intro h
    unfold ofRaw at h
    split at h
    case h_1 => split at h <;> cases h
    case h_2 first second hparts =>
      split at h
      case isTrue => cases h
      case isFalse =>
        split at h
        case isTrue htag =>
          obtain rfl := KeyClass.preimage.inj (Except.ok.inj h)
          exact htag ▸ hparts
        case isFalse => cases h
    case h_3 => cases h
    case h_4 => cases h
  · intro hparts
    unfold ofRaw
    rw [hparts]
    exact (if_neg (by decide)).trans (if_pos rfl)

end KeyClass

namespace Key

variable {raw number hash : Bytes} {d : Digest}

/-- A raw key is addressed by a digest just if its parts are those of a bare digest, of a header or
of a preimage. -/
theorem resolvesTo_iff_kind :
    ResolvesTo raw d ↔
      (KeyClass.ofRaw raw = .ok .hashed ∧ raw = d.bytes) ∨
      (∃ tag number more, KeyClass.ofRaw raw = .ok (.header tag (number :: d.bytes :: more))) ∨
      KeyClass.ofRaw raw = .ok (.preimage d.bytes) := by
  constructor
  · rintro ⟨key, hclass, hsource⟩
    obtain ⟨kind, hkind, rfl⟩ := classify_eq_ok_iff.1 hclass
    rcases source_eq_digest_iff.1 hsource with
      ⟨rfl, rfl⟩ | ⟨tag, number, more, rfl⟩ | rfl
    · exact Or.inl ⟨hkind, rfl⟩
    · exact Or.inr (Or.inl ⟨tag, number, more, hkind⟩)
    · exact Or.inr (Or.inr hkind)
  · rintro (⟨hkind, rfl⟩ | ⟨tag, number, more, hkind⟩ | hkind)
    · exact ⟨_, classify_eq_ok_iff.2 ⟨_, hkind, rfl⟩,
        source_eq_digest_iff.2 (Or.inl ⟨rfl, rfl⟩)⟩
    · exact ⟨_, classify_eq_ok_iff.2 ⟨_, hkind, rfl⟩,
        source_eq_digest_iff.2 (Or.inr (Or.inl ⟨tag, number, more, rfl⟩))⟩
    · exact ⟨_, classify_eq_ok_iff.2 ⟨_, hkind, rfl⟩,
        source_eq_digest_iff.2 (Or.inr (Or.inr rfl))⟩

/-- The layouts are all that resolves to a digest. -/
theorem resolvesTo_iff_layout : ResolvesTo raw d ↔ Layout d raw := by
  rw [resolvesTo_iff_kind, KeyClass.ofRaw_eq_hashed_iff, KeyClass.ofRaw_eq_preimage_iff,
    Bytes.splitOn_eq_pair_iff (by decide)]
  simp only [KeyClass.ofRaw_eq_header_iff]
  constructor
  · rintro (⟨⟨hone, _⟩, rfl⟩ | ⟨_, number, more, rfl, second, hparts, hnumber⟩ |
      ⟨rfl, _, hone⟩)
    · exact .bare hone
    · obtain ⟨rfl, _, htwo⟩ := (Bytes.splitOn_eq_pair_iff (by decide)).1 hparts
      cases more with
      | nil =>
        obtain ⟨rfl, hfirst, hlast⟩ := (Bytes.splitOn_eq_pair_iff (by decide)).1 hnumber
        exact .header htwo hfirst hlast
      | cons third more =>
        obtain ⟨rest, rfl, hfirst, hrest⟩ :=
          (Bytes.splitOn_eq_cons_cons_iff (by decide)).1 hnumber
        obtain ⟨rest, rfl, hsecond, _⟩ := (Bytes.splitOn_eq_cons_cons_iff (by decide)).1 hrest
        exact .trailed htwo hfirst hsecond
    · exact .preimage hone
  · intro h
    cases h with
    | bare hone => exact Or.inl ⟨⟨hone, d.length_eq.ge⟩, rfl⟩
    | @header number hparts hfirst hlast =>
      refine Or.inr (Or.inl ⟨headerTag, number, [], rfl, number ++ numberMark ++ d.bytes, ?_, ?_⟩)
      · exact (Bytes.splitOn_eq_pair_iff (by decide)).2 ⟨rfl, by decide, hparts⟩
      · exact (Bytes.splitOn_eq_pair_iff (by decide)).2 ⟨rfl, hfirst, hlast⟩
    | @trailed number rest hparts hfirst hsecond =>
      refine Or.inr (Or.inl ⟨headerTag, number, Bytes.splitOn numberMark rest, rfl,
        number ++ numberMark ++ (d.bytes ++ numberMark ++ rest), ?_, ?_⟩)
      · exact (Bytes.splitOn_eq_pair_iff (by decide)).2 ⟨rfl, by decide, hparts⟩
      · rw [Bytes.splitOn_append (by decide) hfirst, Bytes.splitOn_append (by decide) hsecond]
    | preimage hone => exact Or.inr (Or.inr ⟨rfl, by decide, hone⟩)

end Key

namespace Scheme

variable {scheme : Scheme} {raw : Bytes} {d : Digest}

theorem deriveRaw_eq_ok_iff {a : Address} :
    scheme.deriveRaw raw = .ok a ↔
      ∃ key, Key.classify raw = .ok key ∧ scheme.derive key = .ok a := by
  unfold deriveRaw
  cases Key.classify raw with
  | error e => simp [bind, Except.bind]
  | ok key => simp [bind, Except.bind]

/-- What resolves to a digest has its address, under every scheme. -/
theorem deriveRaw_of_resolvesTo (h : Key.ResolvesTo raw d) :
    scheme.deriveRaw raw = scheme.derive (.ofDigest d) := by
  obtain ⟨key, hclass, hsource⟩ := h
  rw [derive_ofDigest, deriveRaw_eq_ok_iff]
  refine ⟨key, hclass, derive_eq_ok_iff.2 ⟨.digest d, hsource, ?_, rfl⟩⟩
  intro _ _ _ _ hverbatim
  cases hverbatim

/-- No other raw key has that address. -/
theorem deriveRaw_eq_ofDigest_iff
    (hscheme : (∃ codec, scheme = keccakCid codec) ∨ scheme = keccakBlockstore) :
    scheme.deriveRaw raw = scheme.derive (.ofDigest d) ↔ Key.ResolvesTo raw d := by
  constructor
  · intro h
    rw [derive_ofDigest, deriveRaw_eq_ok_iff] at h
    obtain ⟨key, hclass, hderive⟩ := h
    obtain ⟨source, hsource, _, hplace⟩ := derive_eq_ok_iff.1 hderive
    obtain rfl := place_inj hscheme hplace
    exact ⟨key, hclass, hsource⟩
  · exact deriveRaw_of_resolvesTo

end Scheme

/-- The raw keys under which the block of a digest is found. -/
structure Key.LayoutsOf (d : Digest) : Prop where
  resolve : ∀ raw, Key.ResolvesTo raw d ↔ Key.Layout d raw
  identifiers : ∀ codec raw, (Scheme.keccakCid codec).deriveRaw raw =
    (Scheme.keccakCid codec).derive (.ofDigest d) ↔ Key.Layout d raw
  names : ∀ raw, Scheme.keccakBlockstore.deriveRaw raw =
    Scheme.keccakBlockstore.derive (.ofDigest d) ↔ Key.Layout d raw

/-- The block of a digest is found under its layouts and under no other raw key. -/
theorem Key.layoutsOf (d : Digest) : Key.LayoutsOf d where
  resolve _ := Key.resolvesTo_iff_layout
  identifiers codec _ :=
    (Scheme.deriveRaw_eq_ofDigest_iff (Or.inl ⟨codec, rfl⟩)).trans Key.resolvesTo_iff_layout
  names _ := (Scheme.deriveRaw_eq_ofDigest_iff (Or.inr rfl)).trans Key.resolvesTo_iff_layout

def Key.EndsIn (d : Digest) (raw : Bytes) : Prop :=
  raw = d.bytes ∨ (∃ number, raw = Key.headerRaw number d.bytes) ∨ raw = Key.preimageRaw d.bytes

theorem Key.EndsIn.suffix {d : Digest} {raw : Bytes} (h : Key.EndsIn d raw) : d.bytes <:+ raw := by
  rcases h with rfl | ⟨number, rfl⟩ | rfl
  · exact List.suffix_refl _
  · exact (List.suffix_append ..).trans (List.suffix_append ..)
  · exact List.suffix_append ..

/-- A header with something behind its digest is found under that digest all the same. -/
theorem Key.not_all_endsIn : ¬ ∀ raw d, Key.ResolvesTo raw d → Key.EndsIn d raw := by
  intro hall
  have htrailed : Key.Layout ⟨List.replicate 32 0x11, rfl⟩
      (Key.headerRaw (List.replicate 8 0) (List.replicate 32 0x11 ++ numberMark ++ [0x78])) :=
    .trailed (by decide) (by decide) (by decide)
  have hends := hall _ _ (Key.resolvesTo_iff_layout.2 htrailed)
  exact absurd hends.suffix (by decide)

end KeyedBlocks
