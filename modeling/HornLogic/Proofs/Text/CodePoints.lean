import HornLogic.Proofs.Text.Encoding

/-!
# Encoded texts are in the order of code points

The bytes of a code point hold its digits to the base 64 from the highest on, after a first byte that is greater the
more bytes there are (`Spells`). So of two characters the one with the smaller code point has the smaller bytes,
whatever follows (`Spells.append_lt`), and this carries over to texts (`encode_lt_iff`).
-/
namespace HornLogic.Text

set_option autoImplicit false

theorem map_toNat_lt_iff {left right : List Char} :
    left.map Char.toNat < right.map Char.toNat ↔ left < right := by
  induction left generalizing right with
  | nil => cases right <;> simp
  | cons first rest ih =>
      cases right with
      | nil => simp
      | cons other others =>
          have less : first.toNat < other.toNat ↔ first < other := Iff.rfl
          simp only [List.map_cons, List.cons_lt_cons_iff, less, Char.toNat_inj, ih]

namespace Utf8

/-- The bytes of a code point. The bounds are those within which no shorter form has room for it. -/
inductive Spells (point : Nat) : List UInt8 → Prop where
  | one {lead : UInt8} (upper : point < 0x80) (first : lead.toNat = point) : Spells point [lead]
  | two {lead last : UInt8} (lower : 0x80 ≤ point) (upper : point < 0x800)
      (first : lead.toNat = 0xC0 + point / 64) (final : last.toNat = 0x80 + point % 64) :
      Spells point [lead, last]
  | three {lead second last : UInt8} (lower : 0x800 ≤ point) (upper : point < 0x10000)
      (first : lead.toNat = 0xE0 + point / 4096) (next : second.toNat = 0x80 + point / 64 % 64)
      (final : last.toNat = 0x80 + point % 64) : Spells point [lead, second, last]
  | four {lead second third last : UInt8} (lower : 0x10000 ≤ point) (upper : point < 0x110000)
      (first : lead.toNat = 0xF0 + point / 262144) (next : second.toNat = 0x80 + point / 4096 % 64)
      (later : third.toNat = 0x80 + point / 64 % 64) (final : last.toNat = 0x80 + point % 64) :
      Spells point [lead, second, third, last]

theorem spells_utf8EncodeChar (character : Char) :
    Spells character.toNat (String.utf8EncodeChar character) := by
  have bound : character.toNat < 0x110000 := by
    rcases character.valid with low | ⟨_, high⟩
    · exact Nat.lt_trans low (by decide)
    · exact high
  have number : character.val.toNat = character.toNat := rfl
  unfold String.utf8EncodeChar
  dsimp only
  rw [number]
  split
  · apply Spells.one <;> (try rw [UInt8.toNat_ofNat']) <;> omega
  · split
    · apply Spells.two <;> (try rw [UInt8.toNat_ofNat']) <;> omega
    · split
      · apply Spells.three <;> (try rw [UInt8.toNat_ofNat']) <;> omega
      · apply Spells.four <;> (try rw [UInt8.toNat_ofNat']) <;> omega

/-- Bytes of different number differ in the first one, bytes of the same number where the digits do. -/
theorem Spells.append_lt {smaller greater : Nat} {left right : List UInt8} (spellsLeft : Spells smaller left)
    (spellsRight : Spells greater right) (less : smaller < greater) (leftRest rightRest : List UInt8) :
    left ++ leftRest < right ++ rightRest := by
  cases spellsLeft <;> cases spellsRight <;>
    simp only [List.cons_append, List.cons_lt_cons_iff, UInt8.lt_iff_toNat_lt, ← UInt8.toNat_inj] <;> omega

theorem flatMap_lt_of_lt {left right : List Char} (less : left < right) :
    left.flatMap String.utf8EncodeChar < right.flatMap String.utf8EncodeChar := by
  induction left generalizing right with
  | nil =>
      cases right with
      | nil => exact absurd less (List.lt_irrefl [])
      | cons first rest =>
          cases bytes : String.utf8EncodeChar first with
          | nil => exact absurd bytes String.utf8EncodeChar_ne_nil
          | cons lead others =>
              rw [List.flatMap_nil, List.flatMap_cons, bytes]
              exact List.nil_lt_cons lead _
  | cons first rest ih =>
      cases right with
      | nil => exact absurd less (List.not_lt_nil _)
      | cons other others =>
          rw [List.flatMap_cons, List.flatMap_cons]
          rcases List.cons_lt_cons_iff.mp less with lower | ⟨rfl, later⟩
          · exact (spells_utf8EncodeChar first).append_lt (spells_utf8EncodeChar other) lower _ _
          · exact List.append_left_lt (ih later)

theorem encode_lt_of_lt {left right : String} (less : left < right) : encode left < encode right := by
  rw [encode_eq_flatMap, encode_eq_flatMap]
  exact flatMap_lt_of_lt (String.lt_iff.mp less)

theorem encode_lt_iff {left right : String} : encode left < encode right ↔ left < right := by
  constructor
  · intro bytes
    rcases Std.lt_trichotomy left right with less | same | greater
    · exact less
    · rw [same] at bytes
      exact absurd bytes (List.lt_irrefl _)
    · exact absurd bytes (List.lt_asymm (encode_lt_of_lt greater))
  · exact encode_lt_of_lt

end Utf8
end HornLogic.Text
