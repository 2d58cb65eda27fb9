import KeyedBlocks.Command.Run
import KeyedBlocks.Proofs.Text.Hexadecimal

/-!
Hexadecimal arguments. A mark `0x` in front of an argument changes nothing: with a mark that is not
taken off, a text is not hexadecimal.
-/
namespace KeyedBlocks

namespace Hex

theorem stripMark_marked (digits : String) : stripMark ("0x" ++ digits) = digits := by
  have hletters : ("0x" ++ digits).toList = '0' :: 'x' :: digits.toList := String.toList_append ..
  rw [stripMark, hletters]
  exact String.ofList_toList

theorem stripMark_cases (text : String) :
    stripMark text = text ∨ ∃ digits, text = "0x" ++ digits ∧ stripMark text = digits := by
  unfold stripMark
  split
  · rename_i rest hletters
    have hmarked : ("0x" ++ String.ofList rest).toList = '0' :: 'x' :: rest := by
      simp only [String.toList_append, String.toList_ofList]
      rfl
    exact Or.inr ⟨String.ofList rest, String.toList_inj.1 (hletters.trans hmarked.symm), rfl⟩
  · exact Or.inl rfl

end Hex

/-- An argument spells bytes: it has their digits, with a mark in front of them or without. -/
def Spells (arg : String) (raw : Bytes) : Prop :=
  Hex.decode arg = .ok raw ∨ ∃ digits, arg = "0x" ++ digits ∧ Hex.decode digits = .ok raw

theorem hexArgument_eq_ok_iff {arg : String} {raw : Bytes} :
    hexArgument arg = .ok raw ↔ Hex.decode (Hex.stripMark arg) = .ok raw := by
  unfold hexArgument
  cases Hex.decode (Hex.stripMark arg) <;> simp

theorem hexArgument_ok_iff {arg : String} {raw : Bytes} :
    hexArgument arg = .ok raw ↔ Spells arg raw := by
  rw [hexArgument_eq_ok_iff]
  constructor
  · intro hdecode
    rcases Hex.stripMark_cases arg with hplain | ⟨digits, harg, hstrip⟩
    · exact Or.inl (hplain ▸ hdecode)
    · exact Or.inr ⟨digits, harg, hstrip ▸ hdecode⟩
  · rintro (hdecode | ⟨digits, rfl, hdecode⟩)
    · rcases Hex.stripMark_cases arg with hplain | ⟨digits, rfl, _⟩
      · rw [hplain]
        exact hdecode
      · exact absurd hdecode (Hex.decode_marked digits raw)
    · rw [Hex.stripMark_marked]
      exact hdecode

theorem spells_encode (raw : Bytes) :
    Spells (Hex.encode raw) raw ∧ Spells ("0x" ++ Hex.encode raw) raw :=
  ⟨Or.inl (Hex.decode_encode raw), Or.inr ⟨Hex.encode raw, rfl, Hex.decode_encode raw⟩⟩

end KeyedBlocks
