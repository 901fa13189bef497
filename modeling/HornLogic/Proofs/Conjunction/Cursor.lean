import HornLogic.Conjunction.Cursor
import HornLogic.Proofs.Conjunction.Front
import HornLogic.Proofs.Text.Window

/-!
# Reading in place stays in bounds

At each step of the cursor what is left of a scope is shown by a window of the text (`Scope.In`). From this
follows what a part of the reader gives, and that its positions are sound (`Gives`). A pass leaves a shorter
scope, shown by a window with the same end, or reads one inside of it that is shorter too. So by induction on
the passes that are allowed the whole text is read, to the same atoms or the same fault as by scopes.
-/
namespace HornLogic.Conjunction

set_option autoImplicit false

open Text

section

variable {Item Result : Type}

/-- Whatever was noted before, the reading ends with this result, and all that it notes is sound. -/
def Gives (reading : Reading Result) (result : Except ParseError Result) : Prop :=
  ∃ noted : List Event, (∀ event ∈ noted, event.Sound) ∧
    ∀ events, reading.run.run events = some (result, events ++ noted)

theorem gives_of_silent {reading : Reading Result} {result : Except ParseError Result}
    (run : ∀ events, reading.run.run events = some (result, events)) : Gives reading result := by
  refine ⟨[], List.forall_mem_nil _, fun events => ?_⟩
  rw [run, List.append_nil]

theorem gives_pure (result : Result) : Gives (pure result) (.ok result) :=
  gives_of_silent fun _ => rfl

theorem gives_throw (error : ParseError) : Gives (throw error : Reading Result) (.error error) :=
  gives_of_silent fun _ => rfl

theorem gives_liftExcept (result : Except ParseError Result) : Gives (liftExcept result) result := by
  cases result <;> exact gives_of_silent fun _ => rfl

theorem gives_note {event : Event} (sound : event.Sound) : Gives (note event) (.ok ()) :=
  ⟨[event], List.forall_mem_singleton.mpr sound, fun _ => rfl⟩

variable {reading : Reading Item} {rest : Item → Reading Result}

theorem Gives.next {item : Item} {result : Except ParseError Result} (first : Gives reading (.ok item))
    (later : Gives (rest item) result) : Gives (reading >>= rest) result := by
  obtain ⟨noted, sound, run⟩ := first
  obtain ⟨others, soundOthers, runLater⟩ := later
  refine ⟨noted ++ others, List.forall_mem_append.mpr ⟨sound, soundOthers⟩, fun events => ?_⟩
  rw [ExceptT.run_bind, StateT.run_bind, run]
  exact (runLater _).trans (by rw [List.append_assoc])

theorem Gives.stop {error : ParseError} (first : Gives reading (.error error)) :
    Gives (reading >>= rest) (.error error) := by
  obtain ⟨noted, sound, run⟩ := first
  refine ⟨noted, sound, fun events => ?_⟩
  rw [ExceptT.run_bind, StateT.run_bind, run]
  rfl

/-- The reading may look at less of a result than there is to it. -/
theorem Gives.bind_map {View : Type} {reading : Reading View} {rest : View → Reading Result} {view : Item → View}
    {result : Except ParseError Item} {others : Item → Except ParseError Result}
    (first : Gives reading (result.map view))
    (later : ∀ item, result = .ok item → Gives (rest (view item)) (others item)) :
    Gives (reading >>= rest) (result >>= others) := by
  cases result with
  | error error => exact first.stop
  | ok item => exact first.next (later item rfl)

theorem Gives.bind {result : Except ParseError Item} {others : Item → Except ParseError Result}
    (first : Gives reading result) (later : ∀ item, result = .ok item → Gives (rest item) (others item)) :
    Gives (reading >>= rest) (result >>= others) := by
  cases result with
  | error error => exact first.stop
  | ok item => exact first.next (later item rfl)

end

/-! ## What is in a window -/

/-- The window shows the scope. -/
structure Scope.In (scope : Scope) (window : Window) : Prop where
  start : window.start = scope.position
  characters : window.characters? = some scope.text

namespace Scope.In

variable {scope after : Scope} {window : Window} {piece back : List Char}

theorem finish (shown : scope.In window) : window.finish = scope.position + Utf8.size scope.text := by
  obtain ⟨front, back, -, -, ends⟩ := Window.characters?_eq_some_iff.mp shown.characters
  rw [ends, shown.start]

theorem of_cut (shown : scope.In window) (cut : scope.Cut piece after) :
    after.In { window with start := after.position } := by
  obtain ⟨front, back, parts, starts, ends⟩ := Window.characters?_eq_some_iff.mp shown.characters
  refine ⟨rfl, Window.characters?_eq_some_iff.mpr ⟨front ++ piece, back, ?_, ?_, ?_⟩⟩
  · simp [parts, cut.text]
  · rw [Utf8.size_append, ← starts, shown.start, cut.position]
  · rw [cut.text, Utf8.size_append] at ends
    dsimp only
    rw [ends, shown.start, cut.position, Nat.add_assoc]

theorem tail {position : Nat} {first : Char} {rest : List Char} (shown : In ⟨position, first :: rest⟩ window) :
    In ⟨position + first.utf8Size, rest⟩ { window with start := position + first.utf8Size } := by
  have cut : Cut ⟨position, first :: rest⟩ [first] ⟨position + first.utf8Size, rest⟩ := ⟨rfl, rfl⟩
  exact shown.of_cut cut

theorem of_front (shown : scope.In window) (parts : scope.text = piece ++ back) :
    Scope.In ⟨scope.position, piece⟩ { window with finish := scope.position + Utf8.size piece } := by
  obtain ⟨before, behind, whole, starts, ends⟩ := Window.characters?_eq_some_iff.mp shown.characters
  refine ⟨shown.start, Window.characters?_eq_some_iff.mpr ⟨before, back ++ behind, ?_, starts, ?_⟩⟩
  · simp [whole, parts]
  · rw [← shown.start]

theorem to_end (shown : scope.In window) :
    ∃ back, Scope.In ⟨scope.position, scope.text ++ back⟩ { window with finish := Utf8.size window.text } := by
  obtain ⟨front, back, parts, starts, ends⟩ := Window.characters?_eq_some_iff.mp shown.characters
  refine ⟨back, shown.start, Window.characters?_eq_some_iff.mpr ⟨front, [], ?_, starts, ?_⟩⟩
  · simp [parts]
  · dsimp only
    rw [parts, List.append_assoc, Utf8.size_append, starts]

theorem within (shown : scope.In window) : window.Within := by
  rw [← Window.isSome_characters?_iff, shown.characters]
  rfl

theorem gives_call (shown : scope.In window) : Gives (note (.call window)) (.ok ()) :=
  gives_note shown.within

theorem gives_slice (shown : scope.In window) : Gives (slice window) (.ok scope.text) := by
  apply gives_of_silent
  intro events
  rw [slice, shown.characters]
  rfl

end Scope.In

/-! ## The parts of the reader -/

theorem closeAmong_indexed (depth position : Nat) (text : List Char) :
    closeAmong depth (indexed position text) =
      (splitClose depth text).map fun (inside, _) => position + Utf8.size inside := by
  induction text generalizing depth position with
  | nil => rfl
  | cons first rest ih =>
      have later : ∀ deeper, closeAmong deeper (indexed (position + first.utf8Size) rest) =
          ((splitClose deeper rest).map fun (inside, after) => (first :: inside, after)).map
            fun (inside, _) => position + Utf8.size inside := by
        intro deeper
        rw [ih, Option.map_map]
        exact Option.map_congr fun _ _ => Nat.add_assoc _ _ _
      rw [indexed, closeAmong.eq_def, splitClose.eq_def]
      dsimp only
      split
      · exact later (depth + 1)
      · split
        · cases depth with
          | zero => rfl
          | succ depth => exact later depth
        · exact later depth

namespace Scope.In

variable {scope : Scope} {window : Window} {position : Nat} {first : Char} {rest : List Char}

/-- The character is looked up in the whole text, but it is one of the scope. -/
theorem gives_charAt (shown : In ⟨position, first :: rest⟩ window) :
    Gives (charAt window.text position) (.ok (some first)) := by
  obtain ⟨back, behind⟩ := shown.to_end
  have start : window.start = position := shown.start
  rw [← start]
  exact behind.gives_call.next (behind.gives_slice.next (gives_pure (some first)))

theorem gives_matchingClose (shown : In ⟨position, opener :: rest⟩ window) :
    Gives (matchingClose window) (match splitClose 0 rest with
      | none => .error (placed window.text ⟨.unclosed, position⟩)
      | some (inside, _) => .ok (position + 1 + Utf8.size inside)) := by
  rw [matchingClose, shown.start]
  refine shown.gives_call.next (shown.tail.gives_slice.next ?_)
  rw [closeAmong_indexed]
  cases splitClose 0 rest with
  | none => exact gives_throw _
  | some parts => exact gives_pure _

theorem gives_symbolEnd (shown : scope.In window) :
    Gives (symbolEnd window) (.ok (scope.position + Utf8.size (scope.text.takeWhile inSymbol))) := by
  have parts : scope.text.takeWhile inSymbol ++ scope.text.dropWhile inSymbol = scope.text :=
    List.takeWhile_append_dropWhile
  refine shown.gives_call.next (shown.gives_slice.next ?_)
  rw [find?_indexed, shown.start]
  cases ends : scope.text.dropWhile inSymbol with
  | nil =>
      rw [ends, List.append_nil] at parts
      rw [parts, ← shown.finish]
      exact gives_pure window.finish
  | cons first rest => exact gives_pure _

/-- Blanks are stepped over one by one. -/
theorem gives_nextAmong (shown : scope.In window) :
    Gives (nextAmong window.text window.finish (indexed scope.position scope.text))
      ((scope.skipSeparator.mapError (placed window.text)).map Scope.position) := by
  obtain ⟨position, text⟩ := scope
  induction text generalizing position window with
  | nil =>
      rw [shown.finish]
      exact gives_pure _
  | cons first rest ih =>
      rw [indexed, nextAmong]
      split
      · rename_i separates
        subst separates
        refine shown.tail.gives_slice.next ?_
        rw [skipSeparator_separator]
        dsimp only
        split
        · exact gives_pure _
        · exact gives_throw _
      · rename_i differs
        split
        · rename_i blank
          have later := ih _ shown.tail
          rw [skipSeparator_cons blank]
          exact later
        · rename_i solid
          rw [skipSeparator_other (by simpa using solid) differs]
          exact gives_throw _

theorem gives_nextConjunct (shown : scope.In window) :
    Gives (nextConjunct window) ((scope.skipSeparator.mapError (placed window.text)).map Scope.position) := by
  refine shown.gives_call.next (shown.gives_slice.next ?_)
  rw [shown.start]
  exact shown.gives_nextAmong

end Scope.In

/-! ## Passes -/

theorem Scope.cut_of_skips {scope next : Scope} {report : PlacedFault → ParseError}
    (skips : scope.skipSeparator.mapError report = .ok next) : ∃ piece, scope.Cut piece next := by
  cases read : scope.skipSeparator with
  | error fault =>
      rw [read] at skips
      cases skips
  | ok found =>
      rw [read] at skips
      cases skips
      cases skips_of_skipSeparator read with
      | ended blank cut => exact ⟨_, cut⟩
      | separated blank cut follows => exact ⟨_, cut⟩

/-- Scopes with fewer characters than the bound are read on as they should be. -/
def ReadsBelow (readOn : Window → Nat → Reading (List Atom)) (bound : Nat) : Prop :=
  ∀ (outer : Window) (left : Scope), left.In { outer with start := left.position } → outer.start ≤ left.position →
    left.text.length < bound → Gives (readOn outer left.position) (left.atoms outer.text)

namespace ReadsBelow

variable {readOn : Window → Nat → Reading (List Atom)} {bound : Nat}

theorem goOn (reads : ReadsBelow readOn bound) (outer : Window) {after : Scope} {index : Nat}
    (shown : after.In { outer with start := after.position })
    (begun : outer.start ≤ index) (moved : index < after.position) (shorter : after.text.length < bound)
    (atoms : List Atom) :
    Gives (goOn readOn outer index after.position atoms) (do
      let next ← after.skipSeparator.mapError (placed outer.text)
      let others ← next.atoms outer.text
      return atoms ++ others) := by
  refine shown.gives_nextConjunct.bind_map fun next skips => ?_
  obtain ⟨piece, cut⟩ := Scope.cut_of_skips skips
  have shownNext := shown.of_cut cut
  have place := cut.position
  have finish := shownNext.finish
  have lengths := congrArg List.length cut.text
  rw [List.length_append] at lengths
  dsimp only at finish
  have sound : Event.Sound (.pass outer index next.position) := by
    constructor <;> omega
  refine (gives_note sound).next ?_
  exact (reads outer next shownNext (by omega) (by omega)).bind fun others _ => gives_pure _

variable {outer : Window} {position : Nat} {first : Char} {rest : List Char}

theorem readSymbol (reads : ReadsBelow readOn bound)
    (shown : Scope.In ⟨position, first :: rest⟩ { outer with start := position }) (begun : outer.start ≤ position)
    (shorter : rest.length < bound) (solid : isBlank first = false)
    (noMark : ¬ (first = separator ∨ first = closer)) (noOpener : first ≠ opener) :
    Gives (readSymbol readOn outer position) (Scope.atoms outer.text ⟨position, first :: rest⟩) := by
  have opens := Scope.opening_other solid noMark noOpener position rest
  have parts : first :: rest = (first :: rest).takeWhile inSymbol ++ (first :: rest).dropWhile inSymbol :=
    List.takeWhile_append_dropWhile.symm
  have ends := shown.gives_symbolEnd
  have less := Scope.length_of_opening_symbol opens
  obtain ⟨trimmed, -⟩ := Scope.symbol_of_opening opens
  rw [Scope.atoms_eq, opens]
  dsimp only at ends less
  generalize (first :: rest).takeWhile inSymbol = characters at *
  generalize (first :: rest).dropWhile inSymbol = others at *
  have shownSymbol := shown.of_front parts
  have cut : Scope.Cut ⟨position, first :: rest⟩ characters ⟨position + Utf8.size characters, others⟩ := ⟨parts, rfl⟩
  have moved : position < position + Utf8.size characters := by
    refine Nat.lt_add_of_pos_right (Nat.pos_of_ne_zero fun empty => ?_)
    rw [Utf8.size_eq_zero_iff.mp empty, List.nil_append] at parts
    rw [parts] at less
    exact Nat.lt_irrefl _ less
  refine ends.next (shownSymbol.gives_slice.next ?_)
  rw [trimmed]
  refine (gives_liftExcept (atomOf characters)).bind fun atom _ => ?_
  exact reads.goOn outer (shown.of_cut cut) begun moved (Nat.lt_of_lt_of_le less shorter) [atom]

theorem readGroup (reads : ReadsBelow readOn bound)
    (shown : Scope.In ⟨position, opener :: rest⟩ { outer with start := position }) (begun : outer.start ≤ position)
    (shorter : rest.length < bound) :
    Gives (readGroup readOn outer position) (Scope.atoms outer.text ⟨position, opener :: rest⟩) := by
  have closes := shown.gives_matchingClose
  rw [Scope.atoms_eq, Scope.opening_opener]
  cases split : splitClose 0 rest with
  | none =>
      rw [split] at closes
      exact closes.stop
  | some parts =>
      obtain ⟨inside, after⟩ := parts
      rw [split] at closes
      obtain ⟨parts, -⟩ := splitClose_eq_some_iff.mp split
      subst parts
      have cutGroup : Scope.Cut ⟨position, opener :: (inside ++ closer :: after)⟩ (opener :: inside ++ [closer])
          ⟨position + 1 + Utf8.size inside + 1, after⟩ := by
        constructor
        · simp
        · rw [Scope.size_group, ← Nat.add_assoc, ← Nat.add_assoc]
      have shownInner := shown.tail.of_front rfl
      have shownAfter := shown.of_cut cutGroup
      have finish := shownAfter.finish
      rw [List.length_append, List.length_cons] at shorter
      dsimp only at finish
      -- The closing parenthesis is left of the end of the outer scope, and the cursor is not in front of its start.
      have nested : Event.Sound (.nested outer ⟨outer.text, position + 1, position + 1 + Utf8.size inside⟩) := by
        refine ⟨rfl, ?_, ?_, ?_⟩ <;> dsimp only <;> omega
      refine closes.next ((gives_note nested).next (shownInner.gives_call.next ?_))
      have within := reads ⟨outer.text, position + 1, position + 1 + Utf8.size inside⟩ ⟨position + 1, inside⟩
        shownInner (Nat.le_refl _) (by dsimp only; omega)
      refine within.bind fun atoms _ => ?_
      have moved : position < position + 1 + Utf8.size inside + 1 := by omega
      have less : after.length < bound := by omega
      exact reads.goOn outer shownAfter begun moved less atoms

theorem pass (reads : ReadsBelow readOn bound)
    (shown : Scope.In ⟨position, first :: rest⟩ { outer with start := position }) (begun : outer.start ≤ position)
    (shorter : rest.length < bound) :
    Gives (pass readOn outer position first) (Scope.atoms outer.text ⟨position, first :: rest⟩) := by
  rw [Conjunction.pass]
  split
  · rename_i blank
    have finish := shown.tail.finish
    have width := first.utf8Size_pos
    have sound : Event.Sound (.pass outer position (position + first.utf8Size)) := by
      constructor <;> dsimp only at finish <;> omega
    rw [Scope.atoms_cons blank]
    refine (gives_note sound).next ?_
    exact reads outer _ shown.tail (Nat.le_add_right_of_le begun) shorter
  · rename_i solid
    rw [Bool.not_eq_true] at solid
    split
    · rename_i mark
      rw [Scope.atoms_eq, Scope.opening_mark mark]
      exact gives_throw _
    · rename_i noMark
      split
      · rename_i opens
        subst opens
        exact reads.readGroup shown begun shorter
      · rename_i noOpener
        exact reads.readSymbol shown begun shorter solid noMark noOpener

end ReadsBelow

/-- Each pass leaves less of the scope, so as many as there are characters are enough. -/
theorem readsBelow_readFrom (allowed : Nat) : ReadsBelow (readFrom allowed) allowed := by
  induction allowed with
  | zero => exact fun _ _ _ _ short => absurd short (Nat.not_lt_zero _)
  | succ allowed ih =>
      intro outer left shown begun short
      obtain ⟨position, text⟩ := left
      have finish := shown.finish
      dsimp only at finish
      rw [readFrom]
      cases text with
      | nil =>
          have ended : ¬ position < outer.finish := Nat.not_lt_of_le (Nat.le_of_eq finish)
          rw [if_neg ended, Scope.atoms_eq]
          exact gives_pure []
      | cons first rest =>
          have width := first.utf8Size_pos
          rw [Utf8.size_cons] at finish
          have unended : position < outer.finish := by omega
          rw [if_pos unended]
          refine shown.gives_charAt.next ?_
          exact ih.pass shown begun (Nat.lt_of_succ_lt_succ short)

theorem gives_readInPlace (text : List Char) : Gives (readInPlace text) (atoms text) := by
  have shown : Scope.In ⟨0, text⟩ ⟨text, 0, Utf8.size text⟩ := by
    refine ⟨rfl, Window.characters?_eq_some_iff.mpr ⟨[], [], ?_, rfl, (Nat.zero_add _).symm⟩⟩
    rw [List.nil_append, List.append_nil]
  have same : Scope.atoms text ⟨0, text⟩ = atoms text := by
    rw [Scope.atoms, atoms]
    cases (⟨0, text⟩ : Scope).symbols <;> rfl
  rw [← same]
  refine shown.gives_call.next ?_
  exact readsBelow_readFrom (text.length + 1) ⟨text, 0, Utf8.size text⟩ ⟨0, text⟩ shown (Nat.le_refl 0)
    (Nat.lt_succ_self _)

end HornLogic.Conjunction
