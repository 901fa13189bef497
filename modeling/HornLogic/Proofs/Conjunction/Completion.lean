import HornLogic.Proofs.Conjunction.Padding
import HornLogic.Proofs.Conjunction.Progress

/-!
# What was read can be completed

Wherever reading has come to, the front of the text can be made a whole conjunction
(`Progress.exists_completion`): one more symbol is written, with as many closing parentheses in it as its
scope still needs, and then every open scope is closed from the inside to the outside in the same way. The
parentheses inside symbols count, so each scope is closed at the depth that it was left with.
-/
namespace HornLogic.Conjunction

set_option autoImplicit false

open Text

/-- A text that leads from one depth of open parentheses to another and closes none too early. -/
structure Nests (start finish : Nat) (text : List Char) : Prop where
  neverBelow : ∀ front, front <+: text → front.count closer ≤ start + front.count opener
  evened : finish + text.count closer = start + text.count opener

theorem Nests.split {start finish : Nat} {left right : List Char} (nests : Nests start finish (left ++ right)) :
    ∃ middle, Nests start middle left ∧ Nests middle finish right := by
  have leftBound := nests.neverBelow left (List.prefix_append left right)
  have evened := nests.evened
  rw [List.count_append, List.count_append] at evened
  refine ⟨start + left.count opener - left.count closer, ⟨?_, by omega⟩, ⟨?_, by omega⟩⟩
  · intro front leads
    exact nests.neverBelow front (leads.trans (List.prefix_append left right))
  · intro front leads
    have bound := nests.neverBelow (left ++ front) ((List.prefix_append_right_inj left).mpr leads)
    rw [List.count_append, List.count_append] at bound
    omega

/-- From deep enough every text leads somewhere. -/
theorem nests_counts (text : List Char) : Nests (text.count closer) (text.count opener) text := by
  refine ⟨?_, Nat.add_comm _ _⟩
  intro front leads
  exact Nat.le_trans (leads.sublist.count_le closer) (Nat.le_add_right _ _)

theorem Nests.append {start middle finish : Nat} {left right : List Char} (nestsLeft : Nests start middle left)
    (nestsRight : Nests middle finish right) : Nests start finish (left ++ right) := by
  have leftEvened := nestsLeft.evened
  have rightEvened := nestsRight.evened
  constructor
  · intro front leads
    rcases List.prefix_or_prefix_of_prefix leads (List.prefix_append left right) with within | ⟨inner, rfl⟩
    · exact nestsLeft.neverBelow front within
    · have bound := nestsRight.neverBelow inner ((List.prefix_append_right_inj left).mp leads)
      rw [List.count_append, List.count_append]
      omega
  · rw [List.count_append, List.count_append]
    omega

theorem Nests.deeper {start finish : Nat} {text : List Char} (nests : Nests start finish text) (extra : Nat) :
    Nests (start + extra) (finish + extra) text := by
  have evened := nests.evened
  refine ⟨?_, by omega⟩
  intro front leads
  have bound := nests.neverBelow front leads
  omega

theorem nests_zero_iff {depth : Nat} {text : List Char} : Nests depth 0 text ↔ Closes depth text := by
  constructor
  · intro nests
    exact ⟨nests.neverBelow, by simpa using nests.evened⟩
  · intro closes
    exact ⟨closes.neverBelow, by simpa using closes.evened⟩

theorem Balanced.nests {text : List Char} (balanced : Balanced text) : Nests 0 0 text :=
  nests_zero_iff.mpr (closes_zero_iff.mpr balanced)

theorem Nests.balanced_append {depth : Nat} {left right : List Char} (nests : Nests 0 depth left)
    (closes : Closes depth right) : Balanced (left ++ right) := by
  have whole := nests.append (nests_zero_iff.mpr closes)
  exact closes_zero_iff.mp (nests_zero_iff.mp whole)

theorem Closes.append {depth deeper : Nat} {left right : List Char} (closesLeft : Closes deeper left)
    (closesRight : Closes depth right) : Closes (deeper + depth) (left ++ right) := by
  have nestsLeft := (nests_zero_iff.mpr closesLeft).deeper depth
  rw [Nat.zero_add] at nestsLeft
  exact nests_zero_iff.mp (nestsLeft.append (nests_zero_iff.mpr closesRight))

/-- A symbol that closes as many parentheses as the depth says. -/
def closingSymbol (depth : Nat) : List Char :=
  'p' :: List.replicate depth closer

theorem closes_replicate (depth : Nat) : Closes depth (List.replicate depth closer) := by
  induction depth with
  | zero => exact Closes.nil_iff.mpr rfl
  | succ depth ih => exact Closes.closer_iff.mpr ih

theorem closes_closingSymbol (depth : Nat) : Closes depth (closingSymbol depth) :=
  (Closes.other_iff (by decide) (by decide)).mpr (closes_replicate depth)

theorem mem_closingSymbol {depth : Nat} {character : Char} (member : character ∈ closingSymbol depth) :
    character = 'p' ∨ character = closer := by
  rcases List.mem_cons.mp member with first | later
  · exact .inl first
  · exact .inr (List.eq_of_mem_replicate later)

theorem plain_closingSymbol (depth : Nat) :
    ∀ character ∈ closingSymbol depth, character ≠ '-' ∧ character ≠ '>' := by
  intro character member
  rcases mem_closingSymbol member with rfl | rfl <;> decide

theorem isSymbol_closingSymbol (depth : Nat) : IsSymbol (closingSymbol depth) := by
  constructor
  · intro character member
    rcases mem_closingSymbol member with rfl | rfl <;> decide
  · exact ⟨'p', _, rfl, by decide, by decide⟩

theorem Derives.closingSymbol (depth : Nat) : Derives (closingSymbol depth) [closingSymbol depth] :=
  (DerivesConjunct.symbol (isSymbol_closingSymbol depth)).derives

/-- The front of a text with some more text is a conjunction, which closes what the front left open. -/
structure Completes (front : List Char) (depth : Nat) (completion : List Char) : Prop where
  derives : ∃ symbols, Derives (front ++ completion) symbols
  closes : Closes depth completion
  plain : ∀ character ∈ completion, character ≠ '-' ∧ character ≠ '>'
  solid : ∃ character ∈ completion, inSymbol character = true

namespace Completes

variable {front before conjunct between completion : List Char} {depth : Nat}

theorem ofSymbol {depth : Nat} (derives : ∃ symbols, Derives (front ++ closingSymbol depth) symbols) :
    Completes front depth (closingSymbol depth) where
  derives := derives
  closes := closes_closingSymbol depth
  plain := plain_closingSymbol depth
  solid := ⟨'p', List.mem_cons_self, by decide⟩

/-- A conjunct in front and its separator. -/
theorem behind_separator (blank : allBlank before = true) (part : ∃ symbols, DerivesConjunct conjunct symbols)
    (blankBetween : allBlank between = true) (completes : Completes front depth completion) :
    Completes (before ++ conjunct ++ between ++ separator :: front) depth completion where
  derives := by
    obtain ⟨own, part⟩ := part
    obtain ⟨later, others⟩ := completes.derives
    obtain ⟨character, member, solid⟩ := completes.solid
    have continues : allBlank (front ++ completion) = false :=
      not_allBlank ⟨character, List.mem_append_right front member, solid⟩
    refine ⟨own ++ later, ?_⟩
    simpa using Derives.more blank part blankBetween continues others
  closes := completes.closes
  plain := completes.plain
  solid := completes.solid

/-- The next conjunct is there, and the separator in front of it is missing. -/
theorem separator_cons (completes : Completes (front ++ [separator]) depth completion) :
    Completes front depth (separator :: completion) where
  derives := by simpa using completes.derives
  closes := (Closes.other_iff (by decide) (by decide)).mpr completes.closes
  plain := List.forall_mem_cons.mpr ⟨by decide, completes.plain⟩
  solid := by
    obtain ⟨character, member, solid⟩ := completes.solid
    exact ⟨character, List.mem_cons_of_mem separator member, solid⟩

/-- A conjunct is there, and one more is added to close what is open. -/
theorem ofConjunct (blank : allBlank before = true) (part : ∃ symbols, DerivesConjunct conjunct symbols)
    (blankBetween : allBlank between = true) (depth : Nat) :
    Completes (before ++ conjunct ++ between) depth (separator :: closingSymbol depth) :=
  separator_cons (behind_separator blank part blankBetween (.ofSymbol ⟨_, Derives.closingSymbol depth⟩))

/-- Once an open scope is completed and closed, the scope around it is. -/
theorem ofInside {inner : Nat} (blank : allBlank before = true) (nests : Nests 0 inner front)
    (completes : Completes front inner completion) (depth : Nat) :
    Completes (before ++ opener :: front) (inner + (depth + 1))
      (completion ++ closer :: separator :: closingSymbol depth) where
  derives := by
    obtain ⟨symbols, content⟩ := completes.derives
    have group := DerivesConjunct.group content (nests.balanced_append completes.closes)
    obtain ⟨all, derived⟩ := (ofConjunct blank ⟨_, group⟩ (by rfl : allBlank [] = true) depth).derives
    exact ⟨all, by simpa using derived⟩
  closes := by
    have outer : Closes (depth + 1) (closer :: separator :: closingSymbol depth) :=
      Closes.closer_iff.mpr ((Closes.other_iff (by decide) (by decide)).mpr (closes_closingSymbol depth))
    exact completes.closes.append outer
  plain := by
    have outer : ∀ character ∈ closer :: separator :: closingSymbol depth, character ≠ '-' ∧ character ≠ '>' :=
      List.forall_mem_cons.mpr ⟨by decide, List.forall_mem_cons.mpr ⟨by decide, plain_closingSymbol depth⟩⟩
    exact List.forall_mem_append.mpr ⟨completes.plain, outer⟩
  solid := by
    obtain ⟨character, member, solid⟩ := completes.solid
    exact ⟨character, List.mem_append_left _ member, solid⟩

end Completes

theorem Progress.exists_completion {text front left : List Char} {stage : Stage}
    (progress : Progress text front stage left) {start depth : Nat} (nests : Nests start depth front) :
    ∃ completion, Completes front depth completion := by
  induction progress generalizing start depth with
  | start blank => exact ⟨_, .ofSymbol ⟨_, (Derives.closingSymbol depth).blank_append blank⟩⟩
  | taken blankBefore takes blankBetween =>
      exact ⟨_, .ofConjunct blankBefore takes.derives blankBetween depth⟩
  | @later before conjunct between _ front _ _ blankBefore takes blankBetween others ih =>
      have parts : before ++ conjunct ++ between ++ separator :: front =
          (before ++ conjunct ++ between ++ [separator]) ++ front := by simp
      rw [parts] at nests
      obtain ⟨middle, _, nestsFront⟩ := nests.split
      obtain ⟨completion, completes⟩ := ih nestsFront
      exact ⟨completion, .behind_separator blankBefore takes.derives blankBetween completes⟩
  | @inside before _ _ front _ _ blank balanced within ih =>
      obtain ⟨outer, _, nestsGroup⟩ := nests.split
      obtain ⟨beyond, parts⟩ := within.parts
      have nestsInside := balanced.nests
      rw [parts, List.append_assoc] at nestsInside
      obtain ⟨inner, nestsFront, _⟩ := nestsInside.split
      obtain ⟨completion, completes⟩ := ih nestsFront
      have depthEq : depth = inner + (outer + 1) := by
        have groupEvened := nestsGroup.evened
        have frontEvened := nestsFront.evened
        have closers : (opener :: front).count closer = front.count closer := List.count_cons_of_ne (by decide)
        rw [closers, List.count_cons_self] at groupEvened
        omega
      rw [depthEq]
      exact ⟨_, .ofInside blank nestsFront completes outer⟩

end HornLogic.Conjunction
