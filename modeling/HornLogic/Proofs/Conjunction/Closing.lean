import HornLogic.Conjunction.Closing
import HornLogic.Proofs.Conjunction.Cursor

/-!
# The parenthesis that closes

Two windows of a text that begin at the same place show the same characters as far as both go
(`Scope.In.exists_append`). So a parenthesis closes the one in front of a scope exactly where the scope is cut by
counting (`Scope.In.closedAt_iff`), and there is at most one such place. The count is lowered only where it is
not zero.
-/
namespace HornLogic

set_option autoImplicit false

open Text

namespace Conjunction

theorem closeAmong?_eq (depth : Nat) (characters : List (Nat × Char)) :
    closeAmong? depth characters = some (closeAmong depth characters) := by
  induction characters generalizing depth with
  | nil => rfl
  | cons first later ih =>
      obtain ⟨index, character⟩ := first
      rw [closeAmong?, closeAmong.eq_def]
      dsimp only
      split
      · exact ih (depth + 1)
      · split
        · cases depth with
          | zero => rfl
          | succ depth => exact ih depth
        · exact ih depth

theorem matchingClose?_eq (window : Window) : matchingClose? window = matchingClose window := by
  simp only [matchingClose?, matchingClose, closeAmong?_eq]
  rfl

namespace Scope.In

variable {scope : Scope} {window : Window} {position : Nat} {piece rest : List Char}

/-- What a window with the same start shows is a front of the scope, if it ends no later. -/
theorem exists_append (shown : scope.In window) {finish : Nat} (sooner : finish ≤ window.finish)
    (frontShown : (Window.mk window.text window.start finish).characters? = some piece) :
    ∃ back, scope.text = piece ++ back := by
  obtain ⟨front, back, parts, starts, ends⟩ := Window.characters?_eq_some_iff.mp shown.characters
  obtain ⟨otherFront, otherBack, otherParts, otherStarts, otherEnds⟩ :=
    Window.characters?_eq_some_iff.mp frontShown
  dsimp only at otherParts otherStarts otherEnds
  have cut := Utf8.splitAt?_eq_some_iff.mpr ⟨List.append_assoc .. ▸ parts, starts.symm⟩
  have otherCut := Utf8.splitAt?_eq_some_iff.mpr ⟨List.append_assoc .. ▸ otherParts, otherStarts.symm⟩
  rw [cut] at otherCut
  have behind : scope.text ++ back = piece ++ otherBack := by
    have pairs := Option.some.inj otherCut
    exact (Prod.mk.inj pairs).2
  rcases List.append_eq_append_iff.mp behind with ⟨others, longer, -⟩ | ⟨others, shorter, -⟩
  · rw [longer, Utf8.size_append] at otherEnds
    have noneMore : others = [] := Utf8.size_eq_zero_iff.mp (by omega)
    exact ⟨[], by rw [longer, noneMore, List.append_nil, List.append_nil]⟩
  · exact ⟨others, shorter⟩

theorem closedAt_iff (shown : In ⟨position, opener :: rest⟩ window) {close : Nat} :
    window.ClosedAt close ↔
      ∃ inside after, splitClose 0 rest = some (inside, after) ∧ close = position + 1 + Utf8.size inside := by
  have start : window.start = position := shown.start
  have tail : In ⟨position + 1, rest⟩ { window with start := position + 1 } := shown.tail
  simp only [splitClose_eq_some_iff, closes_zero_iff]
  constructor
  · intro closed
    obtain ⟨inside, insideShown, balanced⟩ := closed.between
    rw [start] at insideShown
    have within : In ⟨position + 1, inside⟩ ⟨window.text, position + 1, close⟩ := ⟨rfl, insideShown⟩
    have place : close = position + 1 + Utf8.size inside := within.finish
    obtain ⟨back, rfl⟩ := tail.exists_append (Nat.le_of_lt closed.within) insideShown
    have behind : In ⟨close, back⟩ { window with start := close } := tail.of_cut ⟨rfl, place⟩
    obtain ⟨after, rfl⟩ := behind.exists_append closed.within closed.closes
    exact ⟨inside, after, ⟨rfl, balanced⟩, place⟩
  · rintro ⟨inside, after, ⟨parts, balanced⟩, place⟩
    have behind : In ⟨close, closer :: after⟩ { window with start := close } := tail.of_cut ⟨parts, place⟩
    have mark : In ⟨close, [closer]⟩ ⟨window.text, close, close + 1⟩ := behind.of_front rfl
    have within := tail.of_front parts
    have ends : window.finish = close + (1 + Utf8.size after) := behind.finish
    constructor
    · omega
    · exact mark.characters
    · rw [start]
      subst place
      exact ⟨inside, within.characters, balanced⟩

/-- A scope with an opening parenthesis in front, if one stands where the window begins. -/
theorem of_opener {text : List Char} {start finish : Nat}
    (opens : (Window.mk text start (start + 1)).characters? = some [opener]) (later : start < finish)
    (boundary : finish ∈ Utf8.boundaries text) :
    ∃ rest, In ⟨start, opener :: rest⟩ ⟨text, start, finish⟩ := by
  have mark := Window.isSome_characters?_iff.mp (Option.isSome_of_eq_some opens)
  obtain ⟨front, back, parts, ends⟩ := Utf8.mem_boundaries_iff.mp boundary
  have within : (Window.mk text start finish).Within := {
    ordered := Nat.le_of_lt later
    inside := by
      rw [parts, Utf8.size_append]
      dsimp only
      omega
    startBoundary := mark.startBoundary
    finishBoundary := boundary }
  obtain ⟨characters, shown⟩ := Option.isSome_iff_exists.mp (Window.isSome_characters?_iff.mpr within)
  have whole : In ⟨start, characters⟩ ⟨text, start, finish⟩ := ⟨rfl, shown⟩
  obtain ⟨rest, rfl⟩ := whole.exists_append later opens
  exact ⟨rest, whole⟩

end Scope.In

/-- Counting finds the parenthesis that closes the one at the start, in every text and for every end of the
scope, and there is no more than one. It fails exactly when there is none. The count is never lowered at zero. -/
theorem matchingClose_finds {text : List Char} {start finish : Nat}
    (opens : (Window.mk text start (start + 1)).characters? = some [opener]) (later : start < finish)
    (boundary : finish ∈ Utf8.boundaries text) :
    ∃ result, Gives (matchingClose ⟨text, start, finish⟩) result ∧
      matchingClose? ⟨text, start, finish⟩ = matchingClose ⟨text, start, finish⟩ ∧
      (∀ close, result = .ok close ↔ (Window.mk text start finish).ClosedAt close) ∧
      (∀ close other, (Window.mk text start finish).ClosedAt close →
        (Window.mk text start finish).ClosedAt other → close = other) ∧
      ∀ error, result = .error error ↔
        error = .conjunction .unclosed start (String.ofList text) ∧
          ∀ close, ¬ (Window.mk text start finish).ClosedAt close := by
  obtain ⟨rest, shown⟩ := Scope.In.of_opener opens later boundary
  refine ⟨_, shown.gives_matchingClose, matchingClose?_eq _, ?_⟩
  simp only [shown.closedAt_iff]
  cases splitClose 0 rest with
  | none =>
      refine ⟨?_, ?_, ?_⟩
      · exact fun close => iff_of_false nofun nofun
      · exact fun close other closed => nomatch closed
      · intro error
        constructor
        · intro same
          cases same
          exact ⟨rfl, fun close => nofun⟩
        · intro fails
          rw [fails.1]
          rfl
  | some parts =>
      obtain ⟨inside, after⟩ := parts
      have place : ∀ close : Nat, (∃ front back, some (inside, after) = some (front, back) ∧
          close = start + 1 + Utf8.size front) ↔ start + 1 + Utf8.size inside = close := by
        intro close
        simp [eq_comm]
      simp only [place]
      refine ⟨?_, ?_, ?_⟩
      · exact fun close => Iff.of_eq (Except.ok.injEq ..)
      · exact fun close other first second => first.symm.trans second
      · exact fun error => iff_of_false nofun fun fails => fails.2 _ rfl

/-- Another pair is inside, and characters of several bytes. In a scope that ends in front of the parenthesis
that closes there is none. -/
theorem matchingClose_finds_outer :
    let text := "α & (β & (γ)) & δ".toList
    (Window.mk text 5 6).characters? = some [opener] ∧
      Gives (matchingClose ⟨text, 5, Utf8.size text⟩) (.ok 15) ∧
      Gives (matchingClose ⟨text, 5, 15⟩) (.error (.conjunction .unclosed 5 (String.ofList text))) ∧
      ∀ close, ¬ (Window.mk text 5 15).ClosedAt close := by
  intro text
  have opens : (Window.mk text 5 6).characters? = some [opener] := by decide +kernel
  have closed : (Window.mk text 5 (Utf8.size text)).ClosedAt 15 := by
    refine ⟨by decide +kernel, by decide +kernel, "β & (γ)".toList, by decide +kernel, by decide +kernel⟩
  obtain ⟨result, gives, -, found, -⟩ :=
    matchingClose_finds opens (by decide +kernel : 5 < Utf8.size text) (by decide +kernel)
  obtain ⟨shortResult, shortGives, -, -, -, fails⟩ :=
    matchingClose_finds opens (by decide : 5 < 15) (by decide +kernel)
  have unclosed : shortResult = .error (.conjunction .unclosed 5 (String.ofList text)) := by
    obtain ⟨noted, -, run⟩ := shortGives
    have ran : ((matchingClose ⟨text, 5, 15⟩).run.run []).map Prod.fst =
        some (.error (.conjunction .unclosed 5 (String.ofList text))) := by decide +kernel
    rw [run] at ran
    exact Option.some.inj ran
  rw [(found 15).mpr closed] at gives
  rw [unclosed] at shortGives
  exact ⟨opens, gives, shortGives, ((fails _).mp unclosed).2⟩

end Conjunction
end HornLogic
