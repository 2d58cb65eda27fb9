import KeyedBlocks.Text.Hex
import Mathlib.Data.List.Basic

/-!
Hexadecimal texts. The bytes of a text are the encodings of its characters one after another, and a
character that is a digit takes one byte. So a text is read just if it is digits of either case, two
for each byte and the high one first; and bytes are written with the same digits in lower case.
-/
namespace KeyedBlocks

namespace Bytes

theorem toList_loop_eq (data : ByteArray) (i : Nat) (read : List UInt8) :
    ByteArray.toList.loop data i read = read.reverse ++ data.data.toList.drop i := by
  fun_induction ByteArray.toList.loop data i read with
  | case1 i read hbound ih =>
    have hbound : i < data.data.toList.length := by simpa using hbound
    rw [ih, List.drop_eq_getElem_cons hbound]
    simp_all [ByteArray.get!]
  | case2 i read hdone =>
    have hdone : data.data.toList.length ≤ i := by simpa using hdone
    rw [List.drop_eq_nil_of_le hdone, List.append_nil]

theorem ofText_eq (text : String) : ofText text = text.toList.flatMap String.utf8EncodeChar := by
  have hbytes : ofText text = text.toByteArray.data.toList := toList_loop_eq text.toByteArray 0 []
  rw [hbytes, ← String.utf8Encode_toList, List.utf8Encode, List.toList_data_toByteArray]

end Bytes

namespace Hex

def sixteen : List Char :=
  ['0', '1', '2', '3', '4', '5', '6', '7', '8', '9', 'a', 'b', 'c', 'd', 'e', 'f']

def valueOf? (c : Char) : Option Nat := sixteen.idxOf? c.toLower

/-- The two halves of each byte, the high one first. -/
def halves (data : Bytes) : List Nat := data.flatMap fun b => [b.toNat / 16, b.toNat % 16]

/-- All characters are digits, and their values are the halves of the bytes. -/
def StandFor (digits : List Char) (data : Bytes) : Prop :=
  digits.map valueOf? = (halves data).map some

theorem valueOf?_ascii : ∀ v < 128,
    (String.utf8EncodeChar (Char.ofNat v)).map digitValue? = [valueOf? (Char.ofNat v)] := by
  decide +kernel

theorem digitValue?_of_ge {b : UInt8} (h : 128 ≤ b.toNat) : digitValue? b = none := by
  simp only [digitValue?]
  rw [if_neg (by omega), if_neg (by omega), if_neg (by omega)]

theorem sixteen_ascii : ∀ c ∈ sixteen, c.toNat < 128 := by
  -- As a Boolean, so that the sixteen are tried and not all characters.
  have hall : (sixteen.all fun c => c.toNat < 128) = true := by decide
  simpa using hall

theorem valueOf?_of_ge {c : Char} (h : 128 ≤ c.toNat) : valueOf? c = none := by
  have hlower : c.toLower = c := by
    refine dif_neg fun hupper => ?_
    have hbound : c.toNat ≤ 90 := UInt32.le_iff_toNat_le.1 hupper.2
    omega
  rw [valueOf?, hlower, List.idxOf?_eq_none_iff]
  intro hmem
  have hsmall := sixteen_ascii c hmem
  omega

/-- What is not ASCII begins with a byte that is no digit. -/
theorem utf8EncodeChar_of_ge {c : Char} (h : 128 ≤ c.toNat) :
    ∃ b rest, String.utf8EncodeChar c = b :: rest ∧ digitValue? b = none := by
  have hbyte : ∀ n, 128 ≤ n → n < 256 → digitValue? (UInt8.ofNat n) = none := by
    intro n hlow hhigh
    have hsame : (UInt8.ofNat n).toNat = n := UInt8.toNat_ofNat_of_lt hhigh
    apply digitValue?_of_ge
    omega
  have hlarge : ¬ c.val.toNat ≤ 127 := by
    have hsame : c.toNat = c.val.toNat := rfl
    omega
  unfold String.utf8EncodeChar
  simp only [if_neg hlarge]
  split
  · exact ⟨_, _, rfl, hbyte _ (by omega) (by omega)⟩
  · split
    · exact ⟨_, _, rfl, hbyte _ (by omega) (by omega)⟩
    · exact ⟨_, _, rfl, hbyte _ (by omega) (by omega)⟩

/-- A character is one byte with the same value, or neither it nor its first byte is a digit. -/
theorem utf8EncodeChar_cases (c : Char) :
    (∃ b, String.utf8EncodeChar c = [b] ∧ digitValue? b = valueOf? c) ∨
      ∃ b rest, String.utf8EncodeChar c = b :: rest ∧ digitValue? b = none ∧ valueOf? c = none := by
  by_cases hascii : c.toNat < 128
  · have hvalue := valueOf?_ascii c.toNat hascii
    rw [Char.ofNat_toNat] at hvalue
    exact Or.inl (List.map_eq_singleton_iff.1 hvalue)
  · obtain ⟨b, rest, hbytes, hnone⟩ := utf8EncodeChar_of_ge (Nat.not_lt.1 hascii)
    exact Or.inr ⟨b, rest, hbytes, hnone, valueOf?_of_ge (Nat.not_lt.1 hascii)⟩

/-- The bytes of a text are digits just if its characters are. -/
theorem digitValues_ofText {text : String} {values : List Nat} :
    (Bytes.ofText text).map digitValue? = values.map some ↔
      text.toList.map valueOf? = values.map some := by
  rw [Bytes.ofText_eq]
  induction text.toList generalizing values with
  | nil => rfl
  | cons c rest ih =>
    rw [List.flatMap_cons, List.map_append, List.map_cons]
    rcases utf8EncodeChar_cases c with ⟨b, hbytes, hvalue⟩ | ⟨b, more, hbytes, hnone, hvalue⟩
    · rw [hbytes, List.map_singleton, List.singleton_append, hvalue]
      cases values with
      | nil => simp
      | cons n values => rw [List.map_cons, List.cons_eq_cons, List.cons_eq_cons, ih]
    · rw [hbytes, List.map_cons, List.cons_append, hnone, hvalue]
      cases values <;> simp

theorem digitValue?_lt {b : UInt8} {n : Nat} (h : digitValue? b = some n) : n < 16 := by
  unfold digitValue? at h
  split at h
  · cases h
    omega
  · split at h
    · cases h
      omega
    · split at h
      · cases h
        omega
      · cases h

theorem halves_cons (b : UInt8) (data : Bytes) :
    halves (b :: data) = b.toNat / 16 :: b.toNat % 16 :: halves data :=
  rfl

theorem length_halves (data : Bytes) : (halves data).length = 2 * data.length := by
  induction data with
  | nil => rfl
  | cons b data ih =>
    rw [halves_cons, List.length_cons, List.length_cons, List.length_cons, ih]
    omega

/-- Two halves make one byte only. -/
theorem halves_eq_iff {h l : Nat} (hh : h < 16) (hl : l < 16) {b : UInt8} :
    (h = b.toNat / 16 ∧ l = b.toNat % 16) ↔ UInt8.ofNat (16 * h + l) = b := by
  have hbound : 16 * h + l < 256 := by omega
  have hbyte : (UInt8.ofNat (16 * h + l)).toNat = 16 * h + l := UInt8.toNat_ofNat_of_lt hbound
  constructor
  · rintro ⟨rfl, rfl⟩
    rw [Nat.div_add_mod, UInt8.ofNat_toNat]
  · rintro rfl
    omega

theorem map_eq_halves_iff {high low : UInt8} {rest data : Bytes} :
    (high :: low :: rest).map digitValue? = (halves data).map some ↔
      ∃ b tail, data = b :: tail ∧ digitValue? high = some (b.toNat / 16) ∧
        digitValue? low = some (b.toNat % 16) ∧
        rest.map digitValue? = (halves tail).map some := by
  constructor
  · intro h
    cases data with
    | nil => cases h
    | cons b tail =>
      obtain ⟨hhigh, hmore⟩ := List.cons.inj h
      obtain ⟨hlow, hrest⟩ := List.cons.inj hmore
      exact ⟨b, tail, rfl, hhigh, hlow, hrest⟩
  · rintro ⟨b, tail, rfl, hhigh, hlow, hrest⟩
    rw [List.map_cons, List.map_cons, hhigh, hlow, hrest]
    rfl

theorem decodePairs_cons_cons_iff {high low : UInt8} {rest data : Bytes} {position : Nat} :
    decodePairs position (high :: low :: rest) = .ok data ↔
      ∃ h l tail, digitValue? high = some h ∧ digitValue? low = some l ∧
        decodePairs (position + 2) rest = .ok tail ∧ UInt8.ofNat (16 * h + l) :: tail = data := by
  rw [decodePairs, digit, digit]
  cases digitValue? high with
  | none => simp [bind, Except.bind]
  | some h =>
    cases digitValue? low with
    | none => simp [bind, Except.bind]
    | some l =>
      cases decodePairs (position + 2) rest <;>
        simp [bind, Except.bind, pure, Except.pure]

/-- Pairs of digits are read as the bytes whose halves they are. -/
theorem decodePairs_eq_ok_iff {bytes data : Bytes} {position : Nat} :
    decodePairs position bytes = .ok data ↔ bytes.map digitValue? = (halves data).map some := by
  induction position, bytes using decodePairs.induct generalizing data with
  | case1 => cases data <;> simp [decodePairs, halves]
  | case2 => cases data <;> simp [decodePairs, halves]
  | case3 position high low rest ih =>
    rw [decodePairs_cons_cons_iff, map_eq_halves_iff]
    constructor
    · rintro ⟨h, l, tail, hhigh, hlow, htail, rfl⟩
      obtain ⟨hh, hl⟩ := (halves_eq_iff (digitValue?_lt hhigh) (digitValue?_lt hlow)).2 rfl
      exact ⟨_, tail, rfl, hhigh.trans (congrArg some hh), hlow.trans (congrArg some hl),
        ih.1 htail⟩
    · rintro ⟨b, tail, rfl, hhigh, hlow, hrest⟩
      have hbyte := (halves_eq_iff (digitValue?_lt hhigh) (digitValue?_lt hlow)).1 ⟨rfl, rfl⟩
      exact ⟨_, _, tail, hhigh, hlow, ih.2 hrest, congrArg (· :: tail) hbyte⟩

/-- A text is read as the bytes that its characters stand for. -/
theorem decode_eq_ok_iff {text : String} {data : Bytes} :
    decode text = .ok data ↔ StandFor text.toList data := by
  have hfirst := @decodePairs_eq_ok_iff (Bytes.ofText text) data 0
  have hpairs : decode text = .ok data ↔
      (Bytes.ofText text).map digitValue? = (halves data).map some := by
    rw [decode, decodeBytes, ← hfirst]
    split
    · rfl
    · rename_i hodd
      constructor
      · intro h
        cases h
      · intro h
        have hlength := congrArg List.length (hfirst.1 h)
        rw [List.length_map, List.length_map, length_halves] at hlength
        omega
  rw [hpairs, digitValues_ofText, StandFor]

theorem StandFor.length_eq {digits : List Char} {data : Bytes} (h : StandFor digits data) :
    digits.length = 2 * data.length := by
  have hlength := congrArg List.length h
  rwa [List.length_map, List.length_map, length_halves] at hlength

theorem encodeChars_eq (data : Bytes) : encodeChars data = (halves data).map digitChar := by
  induction data with
  | nil => rfl
  | cons b data ih => rw [encodeChars, halves_cons, List.map_cons, List.map_cons, ih]

theorem sixteen_eq : ∀ n < 16, sixteen[n]? = some (digitChar n) := by
  decide

theorem valueOf?_eq_some {c : Char} {n : Nat} (h : valueOf? c = some n) :
    n < 16 ∧ digitChar n = c.toLower := by
  obtain ⟨hbound, hplace, _⟩ := List.idxOf?_eq_some_iff.1 h
  have hdigit : sixteen[n]? = some c.toLower := List.getElem?_eq_some_iff.2 ⟨hbound, hplace⟩
  rw [sixteen_eq n hbound] at hdigit
  exact ⟨hbound, Option.some.inj hdigit⟩

theorem map_digitChar {digits : List Char} {values : List Nat}
    (h : digits.map valueOf? = values.map some) :
    values.map digitChar = digits.map Char.toLower := by
  induction digits generalizing values with
  | nil =>
    obtain rfl : values = [] := List.map_eq_nil_iff.1 h.symm
    rfl
  | cons c rest ih =>
    obtain ⟨n, more, rfl, hn, hmore⟩ := List.map_eq_cons_iff.1 h.symm
    rw [List.map_cons, List.map_cons, (valueOf?_eq_some hn.symm).2, ih hmore.symm]

/-- The bytes that digits stand for are written with the same digits in lower case. -/
theorem StandFor.encodeChars_eq {digits : List Char} {data : Bytes} (h : StandFor digits data) :
    encodeChars data = digits.map Char.toLower :=
  (Hex.encodeChars_eq data).trans (map_digitChar h)

/-- Any digits in pairs stand for some bytes. -/
theorem exists_standFor : ∀ {digits : List Char}, (∀ c ∈ digits, (valueOf? c).isSome) →
    digits.length % 2 = 0 → ∃ data, StandFor digits data
  | [], _, _ => ⟨[], rfl⟩
  | [_], _, heven => by simp at heven
  | high :: low :: rest, hdigits, heven => by
    obtain ⟨hhigh, hmore⟩ := List.forall_mem_cons.1 hdigits
    obtain ⟨hlow, hrest⟩ := List.forall_mem_cons.1 hmore
    obtain ⟨h, hhigh⟩ := Option.isSome_iff_exists.1 hhigh
    obtain ⟨l, hlow⟩ := Option.isSome_iff_exists.1 hlow
    obtain ⟨data, hdata⟩ : ∃ data, StandFor rest data := by
      apply exists_standFor hrest
      simp only [List.length_cons] at heven
      omega
    obtain ⟨hh, hl⟩ := (halves_eq_iff (valueOf?_eq_some hhigh).1 (valueOf?_eq_some hlow).1).2 rfl
    refine ⟨UInt8.ofNat (16 * h + l) :: data, ?_⟩
    rw [StandFor, halves_cons, List.map_cons, List.map_cons, List.map_cons, List.map_cons, ← hh,
      ← hl, hhigh, hlow, hdata]

theorem StandFor.isSome {digits : List Char} {data : Bytes} (h : StandFor digits data) :
    ∀ c ∈ digits, (valueOf? c).isSome := by
  intro c hmem
  have hvalue : valueOf? c ∈ (halves data).map some := h ▸ List.mem_map_of_mem hmem
  obtain ⟨n, _, hn⟩ := List.mem_map.1 hvalue
  rw [← hn, Option.isSome_some]

theorem halves_lt {data : Bytes} {n : Nat} (h : n ∈ halves data) : n < 16 := by
  obtain ⟨b, _, hhalf⟩ := List.mem_flatMap.1 h
  have hbound : b.toNat < 256 := b.toNat_lt
  rcases List.mem_pair.1 hhalf with rfl | rfl <;> omega

theorem valueOf?_digitChar : ∀ n < 16, valueOf? (digitChar n) = some n := by
  decide

theorem standFor_encodeChars (data : Bytes) : StandFor (encodeChars data) data := by
  rw [StandFor, encodeChars_eq, List.map_map]
  exact List.map_congr_left fun n hmem => valueOf?_digitChar n (halves_lt hmem)

/-- What is written in hexadecimal is read back. -/
theorem decode_encode (data : Bytes) : decode (encode data) = .ok data := by
  rw [decode_eq_ok_iff, encode, String.toList_ofList]
  exact standFor_encodeChars data

/-- The `x` of a mark is no digit. -/
theorem decode_marked (digits : String) (data : Bytes) : decode ("0x" ++ digits) ≠ .ok data := by
  intro h
  have hletters : ("0x" ++ digits).toList = '0' :: 'x' :: digits.toList := String.toList_append ..
  have hdigits := (decode_eq_ok_iff.1 h).isSome
  rw [hletters] at hdigits
  exact absurd (hdigits 'x' (by simp)) (by decide)

def Paired (digits : String) : Prop :=
  (∀ c ∈ digits.toList, (valueOf? c).isSome) ∧ digits.length % 2 = 0

theorem exists_decode_iff {digits : String} :
    (∃ data, decode digits = .ok data) ↔ Paired digits := by
  simp only [decode_eq_ok_iff, Paired, ← String.length_toList]
  constructor
  · rintro ⟨data, hdata⟩
    refine ⟨hdata.isSome, ?_⟩
    rw [hdata.length_eq, Nat.mul_mod_right]
  · rintro ⟨hdigits, heven⟩
    exact exists_standFor hdigits heven

end Hex

end KeyedBlocks
