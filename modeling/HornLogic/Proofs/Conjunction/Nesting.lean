import HornLogic.Conjunction.Evidence
import HornLogic.Proofs.Conjunction.Continuation

/-!
# The scope around a place

A text is cut in one way only, so two conjuncts of a scope are the same or lie apart (`Leads.same_or_apart`).
Hence at most one pair of parentheses of a scope is around a given place, and the scopes around the place are
nested. Reading comes to a place along the conjuncts of a scope (`Progress.exists_scope`), where it is in none
of the parentheses of this scope, which is therefore the innermost one (`HasScope.innermost`). A parenthesis
that a symbol holds opens no scope, even where another one fits it.
-/
namespace HornLogic.Conjunction

set_option autoImplicit false

open Text

/-- What is cut off from the front of a scope, and what is behind it. In contrast to `Takes`, what is in the
parentheses of a group does not have to be a conjunction. -/
inductive Cuts : List Char → List Char → Prop where
  | symbol {conjunct behind : List Char} (shaped : IsSymbol conjunct) (stops : Stops inSymbol behind) :
      Cuts conjunct behind
  | group {inside behind : List Char} (balanced : Balanced inside) : Cuts (opener :: inside ++ [closer]) behind

def Opening.conjunct? : Opening → Option (List Char × List Char)
  | .nothing => none
  | .symbol characters after => some (characters, after.text)
  | .group inside after => some (opener :: inside.text ++ [closer], after.text)

namespace Cuts

variable {before conjunct behind otherBefore other otherBehind : List Char}

theorem solid (cuts : Cuts conjunct behind) :
    ∃ first rest, conjunct = first :: rest ∧ isBlank first = false := by
  cases cuts with
  | symbol shaped stops => exact (DerivesConjunct.symbol shaped).starts
  | group balanced => exact ⟨opener, _, rfl, by decide⟩

theorem opening (blank : allBlank before = true) (cuts : Cuts conjunct behind) :
    ∃ opening, (⟨0, before ++ conjunct ++ behind⟩ : Scope).opening = .ok opening ∧
      opening.conjunct? = some (conjunct, behind) := by
  let after : Scope := ⟨0 + Utf8.size (before ++ conjunct), behind⟩
  have cut : Scope.Cut ⟨0, before ++ conjunct ++ behind⟩ (before ++ conjunct) after := ⟨rfl, rfl⟩
  cases cuts with
  | symbol shaped stops => exact ⟨_, Scope.opening_symbol blank shaped stops cut, rfl⟩
  | @group inside _ balanced =>
      let within : Scope := ⟨0 + Utf8.size before + 1, inside⟩
      exact ⟨.group within after, Scope.opening_group blank balanced cut rfl, rfl⟩

theorem unique (blank : allBlank before = true) (cuts : Cuts conjunct behind)
    (otherBlank : allBlank otherBefore = true) (otherCuts : Cuts other otherBehind)
    (same : before ++ conjunct ++ behind = otherBefore ++ other ++ otherBehind) :
    before = otherBefore ∧ conjunct = other ∧ behind = otherBehind := by
  obtain ⟨opening, opens, parts⟩ := cuts.opening blank
  obtain ⟨otherOpening, otherOpens, otherParts⟩ := otherCuts.opening otherBlank
  rw [same, otherOpens] at opens
  cases opens
  rw [otherParts] at parts
  cases parts
  rw [List.append_assoc, List.append_assoc] at same
  exact ⟨List.append_cancel_right same, rfl, rfl⟩

end Cuts

theorem Takes.cuts {conjunct behind : List Char} (takes : Takes conjunct behind) : Cuts conjunct behind := by
  cases takes with
  | symbol shaped stops => exact .symbol shaped stops
  | group content balanced => exact .group balanced

/-- A symbol in front of blanks and a separator ends there. -/
theorem DerivesConjunct.takes {conjunct between rest : List Char} {symbols : List (List Char)}
    (part : DerivesConjunct conjunct symbols) (blank : allBlank between = true) :
    Takes conjunct (between ++ separator :: rest) := by
  cases part with
  | symbol shaped => exact .symbol shaped (Scope.blank_stops blank (Scope.separator_stops rest))
  | group content balanced => exact .group content balanced

/-- Two fronts that lead to a conjunct in the same scope are one, or the conjunct behind one is part of the
other. -/
theorem Leads.compare {front conjunct behind other rest : List Char} {solid : Char} (leads : Leads front)
    (cuts : Cuts conjunct behind) (otherLeads : Leads other) (notBlank : isBlank solid = false)
    (same : front ++ conjunct ++ behind = other ++ solid :: rest) :
    other = front ∨ other.length < front.length ∨
      ∃ between later, other = front ++ conjunct ++ between ++ separator :: later ∧
        allBlank between = true := by
  -- Conjuncts that are common to both fronts are dropped one by one, until one of the fronts is blank.
  induction leads generalizing other with
  | @start before blank =>
      cases otherLeads with
      | start otherBlank =>
          obtain ⟨first, later, rfl, firstSolid⟩ := cuts.solid
          rw [List.append_assoc, List.cons_append] at same
          exact .inl (first_solid_unique otherBlank blank notBlank firstSolid same.symm).1
      | @later _ _ between front _ otherBlank part blankBetween others =>
          obtain ⟨rfl, rfl, -⟩ := cuts.unique blank otherBlank (part.takes blankBetween).cuts
            (by simpa using same)
          exact .inr (.inr ⟨between, front, rfl, blankBetween⟩)
  | @later before first between front _ blank part blankBetween leads ih =>
      cases otherLeads with
      | start otherBlank =>
          obtain ⟨head, others, rfl, headSolid⟩ := part.starts
          have parts : other ++ solid :: rest =
              before ++ head :: (others ++ between ++ separator :: front ++ conjunct ++ behind) := by
            simpa using same.symm
          obtain ⟨rfl, -, -⟩ := first_solid_unique otherBlank blank notBlank headSolid parts
          refine .inr (.inl ?_)
          simp
      | @later otherBefore otherFirst otherBetween otherFront _ otherBlank otherPart
          otherBlankBetween others =>
          obtain ⟨rfl, rfl, behindSame⟩ := (part.takes blankBetween).cuts.unique blank otherBlank
            (otherPart.takes otherBlankBetween).cuts (by simpa using same)
          obtain ⟨rfl, -, nextSame⟩ := first_solid_unique blankBetween otherBlankBetween (by decide)
            (by decide) behindSame
          rcases ih others (by simpa using nextSame) with rfl | shorter | ⟨inner, later, rfl, blankInner⟩
          · exact .inl rfl
          · refine .inr (.inl ?_)
            simp only [List.length_append, List.length_cons]
            omega
          · exact .inr (.inr ⟨inner, later, by simp, blankInner⟩)

/-- Two conjuncts of a scope are the same, or one is part of the front that leads to the other. -/
theorem Leads.same_or_apart {front conjunct behind other otherConjunct otherBehind : List Char}
    (leads : Leads front) (cuts : Cuts conjunct behind) (otherLeads : Leads other)
    (otherCuts : Cuts otherConjunct otherBehind)
    (same : front ++ conjunct ++ behind = other ++ otherConjunct ++ otherBehind) :
    (front = other ∧ conjunct = otherConjunct ∧ behind = otherBehind) ∨
      (∃ between later, other = front ++ conjunct ++ between ++ separator :: later ∧ allBlank between = true) ∨
      ∃ between later, front = other ++ otherConjunct ++ between ++ separator :: later ∧
        allBlank between = true := by
  obtain ⟨head, others, rfl, solid⟩ := cuts.solid
  obtain ⟨otherHead, otherOthers, rfl, otherSolid⟩ := otherCuts.solid
  rcases leads.compare cuts otherLeads otherSolid (by simpa using same) with rfl | shorter | beyond
  · have aligned : [] ++ (head :: others) ++ behind = [] ++ (otherHead :: otherOthers) ++ otherBehind := by
      simpa using same
    exact .inl ⟨rfl, (cuts.unique rfl rfl otherCuts aligned).2⟩
  · rcases otherLeads.compare otherCuts leads solid (by simpa using same.symm) with rfl | longer | beyond
    · exact absurd shorter (Nat.lt_irrefl _)
    · exact absurd shorter (Nat.lt_asymm longer)
    · exact .inr (.inr beyond)
  · exact .inr (.inl beyond)

/-- A place of a scope with a front of conjuncts in front of it, or one conjunct more. -/
inductive Reached : List Char → Stage → List Char → Prop where
  | conjunct {front left : List Char} (leads : Leads front) : Reached front .conjunct left
  | separator {front conjunct between left : List Char} (leads : Leads front)
      (cuts : Cuts conjunct (between ++ left)) (blank : allBlank between = true) :
      Reached (front ++ conjunct ++ between) .separator left

theorem Reached.later {before conjunct between front left : List Char} {stage : Stage}
    {symbols : List (List Char)} (reached : Reached front stage left) (blankBefore : allBlank before = true)
    (part : DerivesConjunct conjunct symbols) (blankBetween : allBlank between = true) :
    Reached (before ++ conjunct ++ between ++ Conjunction.separator :: front) stage left := by
  cases reached with
  | conjunct leads => exact .conjunct (.later blankBefore part blankBetween leads)
  | @separator front last space _ leads cuts blank =>
      have longer :
          Reached ((before ++ conjunct ++ between ++ Conjunction.separator :: front) ++ last ++ space)
            .separator left :=
        .separator (.later blankBefore part blankBetween leads) cuts blank
      simpa using longer

/-- A place along the conjuncts of a scope is in no pair of parentheses there. -/
theorem Reached.not_surrounded {front other inside after rest : List Char} {stage : Stage} {solid : Char}
    (reached : Reached front stage (solid :: rest)) (notBlank : isBlank solid = false) (leads : Leads other)
    (balanced : Balanced inside)
    (same : front ++ solid :: rest = other ++ opener :: inside ++ closer :: after) :
    ¬ Surrounds (other ++ [opener]) inside front := by
  intro ⟨begun, lasts⟩
  have cuts : Cuts (opener :: inside ++ [closer]) after := .group balanced
  cases reached with
  | conjunct leadsHere =>
      rcases leads.compare cuts leadsHere notBlank (by simpa using same.symm) with
        rfl | shorter | ⟨between, later, rfl, _⟩
      · simp only [List.length_append, List.length_cons, List.length_nil] at begun
        omega
      · simp only [List.length_append, List.length_cons, List.length_nil] at begun
        omega
      · simp only [List.length_append, List.length_cons, List.length_nil] at lasts
        omega
  | @separator front conjunct between _ leadsHere cutsHere blank =>
      rcases leadsHere.same_or_apart cutsHere leads cuts (by simpa using same) with
        ⟨rfl, rfl, _⟩ | ⟨space, later, rfl, blankSpace⟩ | ⟨space, later, rfl, _⟩
      · simp only [List.length_append, List.length_cons, List.length_nil] at lasts
        omega
      · have gap : between ++ solid :: rest =
            space ++ Conjunction.separator :: (later ++ opener :: inside ++ closer :: after) := by
          simpa using same
        obtain ⟨rfl, -, -⟩ := first_solid_unique blank blankSpace notBlank (by decide) gap
        simp only [List.length_append, List.length_cons, List.length_nil] at begun
        omega
      · simp only [List.length_append, List.length_cons, List.length_nil] at lasts
        omega

namespace Surrounds

variable {front before stretch whole place : List Char}

/-- A place that a stretch surrounds is surrounded by all that holds the stretch. -/
theorem of_part {after : List Char} (surrounds : Surrounds (front ++ opener :: before) stretch place)
    (parts : whole = before ++ stretch ++ after) : Surrounds (front ++ [opener]) whole place := by
  obtain ⟨begun, lasts⟩ := surrounds
  constructor
  · simp only [List.length_append, List.length_cons, List.length_nil] at begun ⊢
    omega
  · simp only [parts, List.length_append, List.length_cons, List.length_nil] at lasts ⊢
    omega

theorem shift_iff : Surrounds (front ++ opener :: before) stretch (front ++ opener :: place) ↔
    Surrounds before stretch place := by
  constructor
  · intro ⟨begun, lasts⟩
    simp only [List.length_append, List.length_cons] at begun lasts
    exact ⟨by omega, by omega⟩
  · intro ⟨begun, lasts⟩
    constructor
    · simpa using begun
    · simp only [List.length_append, List.length_cons]
      omega

end Surrounds

namespace HasScope

variable {text before scope after inner rest : List Char} {stage : Stage} {solid : Char}

theorem parts (has : HasScope text before scope after) : text = before ++ scope ++ after := by
  induction has with
  | whole => simp
  | inside leads balanced deeper ih => simp [ih]

theorem whole_or_balanced (has : HasScope text before scope after) :
    (before = [] ∧ scope = text ∧ after = []) ∨ Balanced scope := by
  induction has with
  | whole => exact .inl ⟨rfl, rfl, rfl⟩
  | inside leads balanced deeper ih =>
      rcases ih with ⟨_, rfl, _⟩ | inner
      · exact .inr balanced
      · exact .inr inner

/-- Two pairs of parentheses in one scope that are around the same place are the same. -/
theorem pair_unique {front inside after other otherInside otherAfter place : List Char} (leads : Leads front)
    (balanced : Balanced inside) (otherLeads : Leads other) (otherBalanced : Balanced otherInside)
    (same : front ++ opener :: inside ++ closer :: after =
      other ++ opener :: otherInside ++ closer :: otherAfter)
    (surrounds : Surrounds (front ++ [opener]) inside place)
    (otherSurrounds : Surrounds (other ++ [opener]) otherInside place) :
    front = other ∧ inside = otherInside ∧ after = otherAfter := by
  obtain ⟨begun, lasts⟩ := surrounds
  obtain ⟨otherBegun, otherLasts⟩ := otherSurrounds
  rcases leads.same_or_apart (.group balanced) otherLeads (.group otherBalanced) (by simpa using same) with
    ⟨rfl, groups, rfl⟩ | ⟨between, later, rfl, _⟩ | ⟨between, later, rfl, _⟩
  · exact ⟨rfl, by simpa using groups, rfl⟩
  · simp only [List.length_append, List.length_cons, List.length_nil] at lasts otherBegun
    omega
  · simp only [List.length_append, List.length_cons, List.length_nil] at begun otherLasts
    omega

/-- The scope that a place is reached in is the innermost one around the place. -/
theorem innermost (has : HasScope text before scope after) (reached : Reached inner stage (solid :: rest))
    (notBlank : isBlank solid = false) (split : scope = inner ++ solid :: rest) :
    InnermostScope text (before ++ inner) before scope after := by
  refine ⟨has, ⟨by simp, by simp [split]⟩, ?_⟩
  intro otherBefore other otherAfter otherHas surrounds
  -- Both ways to a scope go through the same pair of parentheses, as long as both have one to go through.
  induction has generalizing otherBefore otherAfter with
  | @whole text =>
      generalize same : text = whole at otherHas
      cases otherHas with
      | whole => exact ⟨Nat.le_refl _, Nat.le_refl _⟩
      | inside leads balanced deeper =>
          have held := surrounds.of_part deeper.parts
          rw [split] at same
          exact absurd held (reached.not_surrounded notBlank leads balanced same)
  | @inside front inside after before scope behind leads balanced deeper ih =>
      have held : Surrounds (front ++ [opener]) inside (front ++ opener :: before ++ inner) := by
        have here : Surrounds before scope (before ++ inner) := ⟨by simp, by simp [split]⟩
        rw [List.append_assoc, List.cons_append]
        exact (Surrounds.shift_iff.mpr here).of_part deeper.parts
      generalize same : front ++ opener :: inside ++ closer :: after = whole at otherHas
      cases otherHas with
      | whole => exact ⟨Nat.zero_le _, Nat.zero_le _⟩
      | @inside _ _ _ otherBefore _ otherBehind otherLeads otherBalanced otherDeeper =>
          have otherHeld := surrounds.of_part otherDeeper.parts
          obtain ⟨rfl, rfl, rfl⟩ := pair_unique leads balanced otherLeads otherBalanced same held otherHeld
          rw [List.append_assoc, List.cons_append, Surrounds.shift_iff] at surrounds
          obtain ⟨begins, ends⟩ := ih split _ _ otherDeeper surrounds
          constructor
          · simpa using begins
          · simpa using ends

end HasScope

/-- How far reading has come is a place in some scope of the text. -/
theorem Progress.exists_scope {text front left : List Char} {stage : Stage}
    (progress : Progress text front stage left) :
    ∃ before inner after, HasScope text before (inner ++ left) after ∧ front = before ++ inner ∧
      Reached inner stage left := by
  induction progress with
  | @start before left blank => exact ⟨[], before, [], .whole, rfl, .conjunct (.start blank)⟩
  | @taken before conjunct between left blankBefore takes blankBetween =>
      exact ⟨[], _, [], .whole, rfl, .separator (.start blankBefore) takes.cuts blankBetween⟩
  | @later before conjunct between next front left stage blankBefore takes blankBetween others ih =>
      obtain ⟨outer, inner, after, has, rfl, reached⟩ := ih
      obtain ⟨symbols, part⟩ := takes.derives
      generalize scopeEq : inner ++ left = scope at has
      cases has with
      | whole =>
          refine ⟨[], before ++ conjunct ++ between ++ separator :: inner, [], ?_, by simp,
            reached.later blankBefore part blankBetween⟩
          rw [← scopeEq]
          simpa using HasScope.whole
      | @inside ahead inside after beforeScope _ behind leads balanced deeper =>
          refine ⟨(before ++ conjunct ++ between ++ separator :: ahead) ++ opener :: beforeScope, inner,
            behind ++ closer :: after, ?_, by simp, reached⟩
          rw [scopeEq]
          have ready := Leads.later blankBefore part blankBetween leads
          simpa using HasScope.inside ready balanced deeper
  | @inside before inside after front left stage blank balanced within ih =>
      obtain ⟨outer, inner, behind, has, rfl, reached⟩ := ih
      exact ⟨before ++ opener :: outer, inner, behind ++ closer :: after, .inside (.start blank) balanced has,
        by simp, reached⟩

end HornLogic.Conjunction
