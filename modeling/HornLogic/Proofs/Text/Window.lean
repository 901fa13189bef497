import HornLogic.Text.Window

/-!
# What a window shows

A position splits a text exactly where it is a boundary (`Utf8.splitAt?_eq_some_iff`), so a window shows
something exactly when its positions are boundaries, in order and in the text (`Window.isSome_characters?_iff`).
-/
namespace HornLogic.Text

set_option autoImplicit false

namespace Utf8

variable {position : Nat} {text front back : List Char}

theorem size_eq_zero_iff : size text = 0 ↔ text = [] := by
  cases text with
  | nil => exact iff_of_true rfl rfl
  | cons first rest =>
      have present := first.utf8Size_pos
      simp only [size_cons, reduceCtorEq, iff_false]
      omega

theorem splitAt?_zero_eq_some_iff : splitAt? 0 text = some (front, back) ↔ text = front ++ back ∧ size front = 0 := by
  have whole : splitAt? 0 text = some ([], text) := by cases text <;> rfl
  rw [whole, size_eq_zero_iff]
  constructor
  · rintro ⟨⟩
    exact ⟨rfl, rfl⟩
  · rintro ⟨rfl, rfl⟩
    rfl

theorem splitAt?_eq_some_iff :
    splitAt? position text = some (front, back) ↔ text = front ++ back ∧ size front = position := by
  induction text generalizing position front with
  | nil =>
      cases position with
      | zero => exact splitAt?_zero_eq_some_iff
      | succ position =>
          refine iff_of_false nofun ?_
          rintro ⟨parts, sized⟩
          rw [(List.append_eq_nil_iff.mp parts.symm).1] at sized
          cases sized
  | cons first rest ih =>
      cases position with
      | zero => exact splitAt?_zero_eq_some_iff
      | succ position =>
          rw [splitAt?]
          cases front with
          | nil =>
              refine iff_of_false ?_ fun parts => nomatch parts.2
              intro cut
              split at cut
              · obtain ⟨_, _, same⟩ := Option.map_eq_some_iff.mp cut
                cases same
              · cases cut
          | cons head others =>
              rw [size_cons, List.cons_append, List.cons.injEq]
              split
              · rename_i fits
                constructor
                · intro cut
                  obtain ⟨⟨inner, _⟩, cutRest, same⟩ := Option.map_eq_some_iff.mp cut
                  cases same
                  obtain ⟨parts, sized⟩ := ih.mp cutRest
                  exact ⟨⟨rfl, parts⟩, by omega⟩
                · rintro ⟨⟨rfl, parts⟩, sized⟩
                  have cutRest := ih.mpr ⟨parts, rfl⟩
                  rw [← sized, Nat.add_sub_cancel_left, cutRest]
                  rfl
              · rename_i splits
                refine iff_of_false nofun ?_
                rintro ⟨⟨rfl, -⟩, sized⟩
                omega

theorem mem_boundaries_iff :
    position ∈ boundaries text ↔ ∃ front back, text = front ++ back ∧ size front = position := by
  induction text generalizing position with
  | nil => simp [boundaries, eq_comm, size_nil]
  | cons first rest ih =>
    rw [boundaries, List.mem_cons, List.mem_map]
    constructor
    · rintro (rfl | ⟨later, member, rfl⟩)
      · exact ⟨[], first :: rest, rfl, rfl⟩
      · obtain ⟨front, back, rfl, rfl⟩ := ih.mp member
        exact ⟨first :: front, back, rfl, rfl⟩
    · rintro ⟨front, back, parts, rfl⟩
      cases front with
      | nil => exact .inl rfl
      | cons head others =>
        obtain ⟨rfl, rfl⟩ := List.cons_eq_cons.mp parts
        exact .inr ⟨size others, ih.mpr ⟨others, back, rfl, rfl⟩, rfl⟩

end Utf8

namespace Window

variable {window : Window} {characters : List Char}

theorem characters?_eq_some_iff :
    window.characters? = some characters ↔
      ∃ front back, window.text = front ++ characters ++ back ∧ window.start = Utf8.size front ∧
        window.finish = window.start + Utf8.size characters := by
  constructor
  · intro shown
    obtain ⟨⟨front, behind⟩, cut, shown⟩ := Option.bind_eq_some_iff.mp shown
    dsimp only at shown
    split at shown
    · rename_i ordered
      obtain ⟨⟨inside, back⟩, cutBehind, same⟩ := Option.bind_eq_some_iff.mp shown
      dsimp only at same
      cases same
      obtain ⟨parts, starts⟩ := Utf8.splitAt?_eq_some_iff.mp cut
      obtain ⟨rfl, width⟩ := Utf8.splitAt?_eq_some_iff.mp cutBehind
      exact ⟨front, back, by rw [parts, List.append_assoc], starts.symm, by omega⟩
    · cases shown
  · intro ⟨front, back, parts, starts, ends⟩
    have cut : Utf8.splitAt? window.start window.text = some (front, characters ++ back) :=
      Utf8.splitAt?_eq_some_iff.mpr ⟨by rw [parts, List.append_assoc], starts.symm⟩
    have cutBehind : Utf8.splitAt? (window.finish - window.start) (characters ++ back) = some (characters, back) :=
      Utf8.splitAt?_eq_some_iff.mpr ⟨rfl, by omega⟩
    have ordered : window.start ≤ window.finish := by omega
    simp only [characters?, cut, cutBehind, if_pos ordered, Option.bind_eq_bind, Option.bind_some, Option.pure_def]

theorem isSome_characters?_iff : window.characters?.isSome ↔ window.Within := by
  rw [Option.isSome_iff_exists]
  constructor
  · intro ⟨characters, shown⟩
    obtain ⟨front, back, parts, starts, ends⟩ := characters?_eq_some_iff.mp shown
    constructor
    · omega
    · rw [parts, Utf8.size_append, Utf8.size_append]
      omega
    · exact Utf8.mem_boundaries_iff.mpr ⟨front, characters ++ back, by rw [parts, List.append_assoc], starts.symm⟩
    · refine Utf8.mem_boundaries_iff.mpr ⟨front ++ characters, back, parts, ?_⟩
      rw [Utf8.size_append, ends, starts]
  · intro within
    obtain ⟨front, behind, parts, starts⟩ := Utf8.mem_boundaries_iff.mp within.startBoundary
    obtain ⟨before, back, otherParts, ends⟩ := Utf8.mem_boundaries_iff.mp within.finishBoundary
    have ordered := within.ordered
    -- Of two fronts of a text the one with fewer bytes is a front of the other.
    rcases List.append_eq_append_iff.mp (parts.symm.trans otherParts) with ⟨inside, rfl, rfl⟩ | ⟨inside, rfl, rfl⟩
    · rw [Utf8.size_append] at ends
      exact ⟨inside, characters?_eq_some_iff.mpr ⟨front, back, otherParts, starts.symm, by omega⟩⟩
    · rw [Utf8.size_append] at starts
      have empty : inside = [] := Utf8.size_eq_zero_iff.mp (by omega)
      subst empty
      rw [Utf8.size_nil] at starts
      refine ⟨[], characters?_eq_some_iff.mpr ⟨before, behind, ?_, by omega, ?_⟩⟩
      · rw [otherParts, List.append_nil, List.nil_append]
      · rw [Utf8.size_nil]
        omega

/-- A position in the middle of a character shows nothing. -/
example : (Window.mk ['π', 'q'] 1 2).characters? = none ∧ (Window.mk ['π', 'q'] 2 3).characters? = some ['q'] := by
  decide

end Window

theorem find?_indexed (test : Char → Bool) (position : Nat) (text : List Char) :
    ((indexed position text).find? fun (_, character) => !test character) =
      (text.dropWhile test).head?.map fun first => (position + Utf8.size (text.takeWhile test), first) := by
  induction text generalizing position with
  | nil => rfl
  | cons first rest ih =>
      rw [indexed, List.find?_cons, List.dropWhile_cons, List.takeWhile_cons]
      cases passes : test first with
      | false => simp [passes, Utf8.size_nil]
      | true => simp [passes, ih, Utf8.size_cons, Nat.add_assoc]

end HornLogic.Text
