import HornLogic.Proofs.Conjunction.Padding
import HornLogic.Proofs.Conjunction.Progress

/-!
# What can come next

What was read of a text is read in the same way however the text goes on. So every conjunction that begins
with the front of a progress comes to the same stage behind it, and only what this stage admits can follow
(`Progress.admits`). In an open scope this holds because the parenthesis that closes it was not yet found:
no shorter piece of the front is balanced up to a closing parenthesis.
-/
namespace HornLogic.Conjunction

set_option autoImplicit false

open Text

/-- What is not blank and can be the next character. -/
def Stage.Admits : Stage → Char → Prop
  | .conjunct, character => character ≠ Conjunction.separator ∧ character ≠ closer
  | .separator, character => character = Conjunction.separator

theorem first_solid_unique {front other rest later : List Char} {solid first : Char}
    (blank : allBlank front = true) (otherBlank : allBlank other = true) (notBlank : isBlank solid = false)
    (firstNotBlank : isBlank first = false) (same : front ++ solid :: rest = other ++ first :: later) :
    front = other ∧ solid = first ∧ rest = later := by
  have stops : Stops isBlank (solid :: rest) := stops_cons_iff.mpr notBlank
  have otherStops : Stops isBlank (first :: later) := stops_cons_iff.mpr firstNotBlank
  have run := run_eq_iff.mpr ⟨rfl, blank, stops⟩
  have otherRun := run_eq_iff.mpr ⟨rfl, otherBlank, otherStops⟩
  rw [same, otherRun.1, otherRun.2] at run
  exact ⟨run.1.symm, (List.cons.inj run.2).1.symm, (List.cons.inj run.2).2.symm⟩

theorem Takes.congr {conjunct between rest other : List Char} {first : Char}
    (takes : Takes conjunct (between ++ first :: rest)) : Takes conjunct (between ++ first :: other) := by
  cases takes with
  | symbol shaped stops =>
      refine .symbol shaped ?_
      cases between with
      | nil => exact stops_cons_iff.mpr (stops_cons_iff.mp stops)
      | cons head between => exact stops_cons_iff.mpr (stops_cons_iff.mp stops)
  | group content balanced => exact .group content balanced

theorem Reads.next_of_symbol {scope after : Scope} {characters : List Char} {symbols : List (List Char)}
    (reads : Reads scope symbols) (opens : scope.opening = .ok (.symbol characters after)) :
    ∃ next later, after.skipSeparator = .ok next ∧ Reads next later := by
  cases reads with
  | nothing other =>
      rw [opens] at other
      cases other
  | symbol other skips others =>
      rw [opens] at other
      cases other
      exact ⟨_, _, skips, others⟩
  | group other content skips others =>
      rw [opens] at other
      cases other

theorem Reads.next_of_group {scope inside after : Scope} {symbols : List (List Char)}
    (reads : Reads scope symbols) (opens : scope.opening = .ok (.group inside after)) :
    ∃ next later, after.skipSeparator = .ok next ∧ Reads next later := by
  cases reads with
  | nothing other =>
      rw [opens] at other
      cases other
  | symbol other skips others =>
      rw [opens] at other
      cases other
  | group other content skips others =>
      rw [opens] at other
      cases other
      exact ⟨_, _, skips, others⟩

/-- A conjunction that begins with a conjunct ends there, or a separator and a conjunction follow. -/
theorem Takes.behind {before conjunct behind : List Char} {symbols : List (List Char)}
    (blank : allBlank before = true) (takes : Takes conjunct behind)
    (derived : Derives (before ++ conjunct ++ behind) symbols) :
    allBlank behind = true ∨ ∃ between next later, behind = between ++ separator :: next ∧
      allBlank between = true ∧ Derives next later := by
  have reads := reads_of_derives derived 0
  let after : Scope := ⟨0 + Utf8.size (before ++ conjunct), behind⟩
  have cut : Scope.Cut ⟨0, before ++ conjunct ++ behind⟩ (before ++ conjunct) after := ⟨rfl, rfl⟩
  have continues : ∃ next later, after.skipSeparator = .ok next ∧ Reads next later := by
    cases takes with
    | symbol shaped stops => exact reads.next_of_symbol (Scope.opening_symbol blank shaped stops cut)
    | @group inside _ _ content balanced =>
        let within : Scope := ⟨0 + Utf8.size before + 1, inside⟩
        have opens : Scope.opening _ = .ok (.group within after) :=
          Scope.opening_group blank balanced cut rfl
        exact reads.next_of_group opens
  obtain ⟨next, later, skips, others⟩ := continues
  cases Scope.skipSeparator_eq_ok_iff.mp skips with
  | ended blankBehind cutEnd => exact .inl blankBehind
  | @separated between _ blankBetween cutSeparator follows =>
      exact .inr ⟨between, next.text, later, by simpa using cutSeparator.text, blankBetween,
        derives_of_reads others⟩

theorem Derives.blank_or_conjunct {text : List Char} {symbols : List (List Char)}
    (derived : Derives text symbols) :
    allBlank text = true ∨ ∃ before conjunct behind own, text = before ++ (conjunct ++ behind) ∧
      allBlank before = true ∧ DerivesConjunct conjunct own := by
  cases derived with
  | blank blank => exact .inl blank
  | last blankBefore part blankAfter => exact .inr ⟨_, _, _, _, List.append_assoc .., blankBefore, part⟩
  | @more before conjunct after rest _ _ blankBefore part blankAfter continues others =>
      exact .inr ⟨before, conjunct, after ++ separator :: rest, _, by simp, blankBefore, part⟩

/-- The first character of a conjunction that is not blank begins its first conjunct. -/
theorem Derives.conjunct_of_solid {before rest : List Char} {solid : Char} {symbols : List (List Char)}
    (blank : allBlank before = true) (notBlank : isBlank solid = false)
    (derived : Derives (before ++ solid :: rest) symbols) :
    ∃ others behind own, rest = others ++ behind ∧ DerivesConjunct (solid :: others) own := by
  rcases derived.blank_or_conjunct with blankAll | ⟨front, conjunct, behind, own, parts, frontBlank, part⟩
  · exact absurd (by simp) (not_mem_of_blank blankAll notBlank)
  · obtain ⟨first, others, rfl, firstSolid⟩ := part.starts
    obtain ⟨-, rfl, rfl⟩ := first_solid_unique blank frontBlank notBlank firstSolid parts
    exact ⟨others, behind, own, rfl, part⟩

/-- A conjunction that begins with an opening parenthesis has the one that closes it. -/
theorem Derives.of_opener {before rest : List Char} {symbols : List (List Char)}
    (blank : allBlank before = true) (derived : Derives (before ++ opener :: rest) symbols) :
    ∃ inside after own, rest = inside ++ closer :: after ∧ Balanced inside ∧ Derives inside own := by
  obtain ⟨others, behind, own, rfl, part⟩ := derived.conjunct_of_solid blank (by decide)
  generalize conjunctEq : opener :: others = conjunct at part
  cases part with
  | symbol shaped =>
      obtain ⟨first, rest, begins, notOpener, _⟩ := shaped.begins
      rw [← conjunctEq] at begins
      cases begins
      exact absurd rfl notOpener
  | @group inside _ content balanced =>
      cases conjunctEq
      exact ⟨inside, behind, own, by simp, balanced, content⟩

theorem Balanced.not_closed {whole inside : List Char} (balanced : Balanced whole) (inner : Balanced inside) :
    ¬ inside ++ [closer] <+: whole := by
  intro ahead
  have bound := balanced.neverBelow _ ahead
  have evened := inner.evened
  rw [List.count_append, List.count_append, evened] at bound
  have marks : [closer].count closer = 1 ∧ [closer].count opener = 0 := by decide
  omega

/-- The parenthesis that closes a scope is not in a front of a text that was balanced. -/
theorem Balanced.exists_longer {front rest inside after continuation : List Char} {character : Char}
    (balanced : Balanced (front ++ character :: rest)) (inner : Balanced inside)
    (same : front ++ character :: continuation = inside ++ closer :: after) :
    ∃ shorter, inside = front ++ character :: shorter := by
  have ahead : front ++ [character] <+: inside ++ [closer] ++ after := by
    rw [← List.append_cons, ← same, List.append_cons front character continuation]
    exact List.prefix_append _ _
  have notClosed : ¬ inside ++ [closer] <+: front ++ [character] := by
    intro closed
    apply balanced.not_closed inner
    rw [List.append_cons front character rest]
    exact closed.trans (List.prefix_append _ _)
  rcases List.prefix_or_prefix_of_prefix ahead (List.prefix_append (inside ++ [closer]) after) with
    within | closed
  · rcases List.prefix_concat_iff.mp within with whole | ⟨shorter, longer⟩
    · exact absurd (whole ▸ List.prefix_refl _) notClosed
    · exact ⟨shorter, by rw [← longer, List.append_cons front character shorter]⟩
  · exact absurd closed notClosed

theorem Progress.admits {text front left later continuation : List Char} {stage : Stage} {character : Char}
    {symbols : List (List Char)} (progress : Progress text front stage left) (here : left = character :: later)
    (solid : isBlank character = false) (derived : Derives (front ++ character :: continuation) symbols) :
    stage.Admits character := by
  induction progress generalizing continuation symbols with
  | start blank =>
      obtain ⟨others, behind, own, _, part⟩ := derived.conjunct_of_solid blank solid
      obtain ⟨first, rest, begins, withinSymbol, notCloser⟩ := part.begins
      cases begins
      refine ⟨?_, notCloser⟩
      rintro rfl
      cases withinSymbol
  | @taken before conjunct between left blankBefore takes blankBetween =>
      rw [here] at takes
      rw [List.append_assoc] at derived
      rcases Takes.behind blankBefore takes.congr derived with blankAll | ⟨front, next, _, parts, blank, _⟩
      · exact absurd (by simp) (not_mem_of_blank blankAll solid)
      · exact (first_solid_unique blankBetween blank solid (by decide) parts).2.1
  | @later before conjunct between next front left stage blankBefore takes blankBetween others ih =>
      rw [List.append_assoc, List.append_assoc, List.cons_append] at derived
      rcases Takes.behind blankBefore takes.congr (by simpa using derived) with
        blankAll | ⟨other, rest, _, parts, blank, derivedRest⟩
      · exact absurd (by simp) (not_mem_of_blank blankAll (by decide : isBlank separator = false))
      · obtain ⟨_, _, rfl⟩ := first_solid_unique blankBetween blank (by decide) (by decide) parts
        exact ih here derivedRest
  | @inside before inside after front left stage blank balanced within ih =>
      rw [List.append_assoc, List.cons_append] at derived
      obtain ⟨content, behind, _, parts, contentBalanced, contentDerived⟩ := derived.of_opener blank
      obtain ⟨beyond, insideParts⟩ := within.parts
      rw [insideParts, here, List.append_assoc, List.cons_append] at balanced
      obtain ⟨shorter, rfl⟩ := balanced.exists_longer contentBalanced parts
      exact ih here contentDerived

end HornLogic.Conjunction
