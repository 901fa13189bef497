import HornLogic.Source

/-!
# Characters of one byte in encoded texts

The byte of a line feed or a carriage return stands for this character wherever it occurs in an encoded text: no
other character has it among its bytes. So an encoded text that is cut at such a byte falls into encoded texts
(`split_encode`), and whether a line is a text does not depend on such a byte behind it (`decode?_concat`).
-/
namespace HornLogic.Text.Utf8

set_option autoImplicit false

open Source (lineFeed)

theorem encode_ofList (text : List Char) :
    encode (String.ofList text) = text.flatMap String.utf8EncodeChar := by
  rw [encode, String.toByteArray_ofList, List.utf8Encode, List.data_toByteArray]

theorem encode_eq_flatMap (text : String) :
    encode text = text.toList.flatMap String.utf8EncodeChar := by
  rw [← encode_ofList, String.ofList_toList]

theorem encode_append (left right : String) : encode (left ++ right) = encode left ++ encode right := by
  simp only [encode_eq_flatMap, String.toList_append, List.flatMap_append]

theorem length_encode (text : String) : (encode text).length = size text.toList := by
  rw [encode_eq_flatMap]
  induction text.toList with
  | nil => rfl
  | cons first rest ih =>
      rw [List.flatMap_cons, List.length_append, String.length_utf8EncodeChar, ih, size_cons]

/-- A character has its own number as its only byte, or high bytes alone. -/
theorem low_or_high_of_mem {character : Char} {byte : UInt8}
    (member : byte ∈ String.utf8EncodeChar character) :
    byte.toNat = character.toNat ∨ 0x80 ≤ byte.toNat := by
  have number : character.val.toNat = character.toNat := rfl
  unfold String.utf8EncodeChar at member
  dsimp only at member
  split at member
  · rw [List.mem_singleton.mp member, UInt8.toNat_ofNat']
    omega
  · apply Or.inr
    split at member
    · simp only [List.mem_cons, List.not_mem_nil, or_false] at member
      rcases member with rfl | rfl <;> (rw [UInt8.toNat_ofNat']; omega)
    · split at member
      · simp only [List.mem_cons, List.not_mem_nil, or_false] at member
        rcases member with rfl | rfl | rfl <;> (rw [UInt8.toNat_ofNat']; omega)
      · simp only [List.mem_cons, List.not_mem_nil, or_false] at member
        rcases member with rfl | rfl | rfl | rfl <;> (rw [UInt8.toNat_ofNat']; omega)

theorem eq_of_encode_eq {left right : String} (same : encode left = encode right) : left = right := by
  have decoded := decode?_encode left
  rw [same, decode?_encode] at decoded
  exact (Option.some.inj decoded).symm

/-- The byte is all that a character is encoded to, and no part of another one. -/
structure IsSingle (mark : Char) (byte : UInt8) : Prop where
  low : byte.toNat < 0x80
  encoded : String.utf8EncodeChar mark = [byte]

theorem isSingle_newline : IsSingle '\n' lineFeed :=
  ⟨by decide, by decide⟩

namespace IsSingle

variable {mark : Char} {byte : UInt8}

theorem encode_singleton (single : IsSingle mark byte) : encode (String.singleton mark) = [byte] := by
  rw [encode_eq_flatMap, String.toList_singleton, List.flatMap_singleton, single.encoded]

theorem mem_utf8EncodeChar_iff (single : IsSingle mark byte) {character : Char} :
    byte ∈ String.utf8EncodeChar character ↔ character = mark := by
  have own : byte.toNat = mark.toNat := by
    have member : byte ∈ String.utf8EncodeChar mark := by simp [single.encoded]
    exact (low_or_high_of_mem member).resolve_right (Nat.not_le.mpr single.low)
  constructor
  · intro member
    have same := (low_or_high_of_mem member).resolve_right (Nat.not_le.mpr single.low)
    exact Char.toNat_inj.mp (same.symm.trans own)
  · intro same
    rw [same, single.encoded]
    exact List.mem_singleton_self byte

theorem mem_encode_iff (single : IsSingle mark byte) {text : String} : byte ∈ encode text ↔ mark ∈ text.toList := by
  simp [encode_eq_flatMap, single.mem_utf8EncodeChar_iff]

/-- Where the byte stands in an encoded text, the character stands in the text. -/
theorem split_encode (single : IsSingle mark byte) {text : List Char} {left right : List UInt8}
    (split : encode (String.ofList text) = left ++ byte :: right) :
    ∃ before after, text = before ++ mark :: after ∧ left = encode (String.ofList before) ∧
      right = encode (String.ofList after) := by
  rw [encode_ofList] at split
  induction text generalizing left with
  | nil => simp at split
  | cons first rest ih =>
      rw [List.flatMap_cons] at split
      -- If the first character lies in front of the cut, the rest of the text is cut in the same place.
      have deeper : ∀ others, left = String.utf8EncodeChar first ++ others →
          rest.flatMap String.utf8EncodeChar = others ++ byte :: right →
          ∃ before after, first :: rest = before ++ mark :: after ∧
            left = encode (String.ofList before) ∧ right = encode (String.ofList after) := by
        intro others front later
        obtain ⟨before, after, rfl, earlier, remaining⟩ := ih later
        refine ⟨first :: before, after, rfl, ?_, remaining⟩
        rw [front, earlier, encode_ofList, encode_ofList, List.flatMap_cons]
      rcases List.append_eq_append_iff.mp split with ⟨others, front, later⟩ | ⟨inner, own, later⟩
      · exact deeper others front later
      · cases inner with
        | nil =>
            rw [List.append_nil] at own
            exact deeper [] (by rw [own, List.append_nil]) later.symm
        | cons head inner =>
            -- A cut inside a character would be at the byte among its bytes, so it is that character.
            rw [List.cons_append, List.cons.injEq] at later
            have member : byte ∈ String.utf8EncodeChar first := by
              rw [own, later.1]
              simp
            rw [single.mem_utf8EncodeChar_iff.mp member] at own ⊢
            rw [single.encoded, List.singleton_eq_append_iff] at own
            rcases own with ⟨noLeft, alone⟩ | ⟨_, none⟩
            · cases alone
              exact ⟨[], rest, rfl, noLeft, by rw [encode_ofList]; exact later.2⟩
            · cases none

/-- Whether bytes are a text does not depend on such a byte behind them. -/
theorem decode?_concat (single : IsSingle mark byte) (line : List UInt8) :
    decode? (line ++ [byte]) = (decode? line).map (· ++ String.singleton mark) := by
  apply Option.ext
  intro text
  rw [Option.map_eq_some_iff, decode?_eq_some_iff]
  constructor
  · intro encoded
    rw [← text.ofList_toList] at encoded
    obtain ⟨before, after, parts, front, nothing⟩ := single.split_encode encoded.symm
    have ended : String.ofList after = "" := eq_of_encode_eq nothing.symm
    rw [String.ofList_eq_empty_iff] at ended
    refine ⟨String.ofList before, decode?_eq_some_iff.mpr front, ?_⟩
    rw [← text.ofList_toList, parts, ended, String.ofList_append]
    rfl
  · intro ⟨front, decoded, same⟩
    rw [decode?_eq_some_iff.mp decoded, ← same, encode_append, single.encode_singleton]

end IsSingle

theorem lineFeed_mem_encode_iff {text : String} : lineFeed ∈ encode text ↔ '\n' ∈ text.toList :=
  isSingle_newline.mem_encode_iff

theorem decode?_ended (line : List UInt8) :
    decode? (line ++ [lineFeed]) = (decode? line).map (· ++ "\n") :=
  isSingle_newline.decode?_concat line

end HornLogic.Text.Utf8
