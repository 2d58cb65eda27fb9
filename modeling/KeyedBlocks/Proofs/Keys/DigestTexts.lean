import KeyedBlocks.Proofs.Command.HexArguments

/-!
The texts of digests. A text is read as a digest just if it is, but for one mark `0x` in front, 64
hexadecimal digits of either case that stand for its bytes; the digest is written with the same
digits in lower case. Digits of another number are no digest, and anything else is no hexadecimal
text. Arguments of commands are read in the same way.
-/
namespace KeyedBlocks

namespace Hex

/-- What is left of a text without the mark in front of it, if it has one. -/
inductive Unmarked : String → String → Prop
  | marked (digits : String) : Unmarked ("0x" ++ digits) digits
  | plain {text : String} (h : ∀ digits, text ≠ "0x" ++ digits) : Unmarked text text

theorem unmarked_stripMark (text : String) : Unmarked text (stripMark text) := by
  rcases stripMark_cases text with hsame | ⟨digits, rfl, hstrip⟩
  · rw [hsame]
    refine .plain ?_
    rintro digits rfl
    -- The text would be its own rest behind the mark.
    rw [stripMark_marked] at hsame
    have hlength := congrArg String.length hsame
    rw [String.length_append] at hlength
    have hmark : "0x".length = 2 := rfl
    omega
  · rw [hstrip]
    exact .marked digits

end Hex

namespace Digest

/-- How a text is read, by the digits that are left of it without its mark. -/
structure Reads (text digits : String) : Prop where
  ok_iff : ∀ d, ofHex text = .ok d ↔ digits.length = 64 ∧ Hex.StandFor digits.toList d.bytes
  lower : ∀ d, ofHex text = .ok d → d.toHex.toList = digits.toList.map Char.toLower
  malformed : Hex.Paired digits → digits.length ≠ 64 →
    ofHex text = .error (.malformedDigest 32 (digits.length / 2))
  invalid : ¬ Hex.Paired digits →
    ∃ cause : Hex.HexError, ofHex text = .error (.invalidHex cause.message)
  argument : ∀ d, hexArgument text = .ok d.bytes ↔ ofHex text = .ok d

variable {text : String}

theorem ofHex_of_decode {data : Bytes} (h : Hex.decode (Hex.stripMark text) = .ok data) :
    ofHex text = ofBytes data := by
  rw [ofHex, h]

theorem ofHex_eq_ok_iff {d : Digest} :
    ofHex text = .ok d ↔ Hex.decode (Hex.stripMark text) = .ok d.bytes := by
  cases hdecode : Hex.decode (Hex.stripMark text) with
  | error e => simp [ofHex, hdecode]
  | ok data => rw [ofHex_of_decode hdecode, ofBytes_eq_ok_iff, Except.ok.injEq]

theorem ofHex_of_paired (h : Hex.Paired (Hex.stripMark text))
    (hlength : (Hex.stripMark text).length ≠ 64) :
    ofHex text = .error (.malformedDigest 32 ((Hex.stripMark text).length / 2)) := by
  obtain ⟨data, hdata⟩ := Hex.exists_decode_iff.2 h
  have htwice := (Hex.decode_eq_ok_iff.1 hdata).length_eq
  rw [String.length_toList] at htwice
  have hhalf : data.length = (Hex.stripMark text).length / 2 := by omega
  have hwrong : data.length ≠ digestLength := by
    unfold digestLength
    omega
  rw [ofHex_of_decode hdata, ofBytes, dif_neg hwrong, hhalf]
  rfl

theorem ofHex_of_not_paired (h : ¬ Hex.Paired (Hex.stripMark text)) :
    ∃ cause : Hex.HexError, ofHex text = .error (.invalidHex cause.message) := by
  cases hdecode : Hex.decode (Hex.stripMark text) with
  | ok data => exact absurd (Hex.exists_decode_iff.1 ⟨data, hdecode⟩) h
  | error cause => exact ⟨cause, by rw [ofHex, hdecode]⟩

theorem reads_stripMark (text : String) : Reads text (Hex.stripMark text) where
  ok_iff d := by
    rw [ofHex_eq_ok_iff, Hex.decode_eq_ok_iff, iff_and_self]
    intro hstand
    rw [← String.length_toList, hstand.length_eq, d.length_eq]
    rfl
  lower d hok := by
    have hstand := Hex.decode_eq_ok_iff.1 (ofHex_eq_ok_iff.1 hok)
    rw [toHex, Hex.encode, String.toList_ofList, hstand.encodeChars_eq]
  malformed := ofHex_of_paired
  invalid := ofHex_of_not_paired
  argument d := by rw [ofHex_eq_ok_iff, hexArgument_eq_ok_iff]

/-- Texts are read by the digits in them, and what is written is read again, with a mark or without.
-/
theorem readsTexts :
    (∀ text, ∃ digits, Hex.Unmarked text digits ∧ Reads text digits) ∧
      ∀ d : Digest, ofHex d.toHex = .ok d ∧ ofHex ("0x" ++ d.toHex) = .ok d := by
  refine ⟨fun text => ⟨_, Hex.unmarked_stripMark text, reads_stripMark text⟩, fun d => ?_⟩
  obtain ⟨hplain, hmarked⟩ := spells_encode d.bytes
  simp only [ofHex_eq_ok_iff, ← hexArgument_eq_ok_iff, hexArgument_ok_iff]
  exact ⟨hplain, hmarked⟩

end Digest

end KeyedBlocks
