import HornLogic.Order
import HornLogic.Proofs.Text.CodePoints

/-!
# The order of atoms and clauses is strict and total

The comparisons are lexicographic over the kind of an atom, the code points of its symbol, the atoms of a premise and
the conclusion. Each of these is transitive and equal for equal items alone, and so they are together.
-/
namespace HornLogic

set_option autoImplicit false

open Text

theorem ordersStrictly_of_lawful {Item : Type} [Ord Item] [LT Item] [Std.TransOrd Item] [Std.LawfulEqOrd Item]
    (lessIff : ∀ left right : Item, compare left right = .lt ↔ left < right) : OrdersStrictly Item := by
  have sameIff : ∀ left right : Item, compare left right = .eq ↔ left = right :=
    fun _ _ => Std.LawfulEqCmp.compare_eq_iff_eq
  have greaterIff : ∀ left right : Item, compare left right = .gt ↔ right < left := by
    intro left right
    rw [Std.OrientedCmp.gt_iff_lt, lessIff]
  refine ⟨lessIff, sameIff, greaterIff, ?exactlyOne, ?transitive⟩
  case exactlyOne =>
    intro left right
    rw [ne_eq, ← lessIff left right, ← sameIff, ← greaterIff]
    cases compare left right <;> decide
  case transitive =>
    intro left middle right below above
    rw [← lessIff] at below above ⊢
    exact Std.TransCmp.lt_trans below above

/-- Lists are compared item by item from the front, and a list in front of another one is less. -/
theorem compare_lists_eq_lt_iff {Item : Type} [Ord Item] [LT Item] (orders : OrdersStrictly Item)
    {left right : List Item} : compare left right = .lt ↔ left < right := by
  induction left generalizing right with
  | nil => cases right <;> simp
  | cons first rest ih =>
      cases right with
      | nil => simp
      | cons other others =>
          rw [List.compare_cons_cons, Ordering.then_eq_lt, List.cons_lt_cons_iff, orders.compareLtIff,
            orders.compareEqIff, ih]

namespace Atom

theorem ordersStrictly : OrdersStrictly Atom :=
  ordersStrictly_of_lawful fun _ _ => Iff.rfl

theorem verum_lt_falsum : verum < falsum := rfl

theorem falsum_lt_named (symbol : String) : falsum < named symbol := rfl

theorem named_lt_named_iff {left right : String} : named left < named right ↔ left < right := by
  change compare (named left) (named right) = .lt ↔ _
  rw [compare_named]
  exact compareOfLessAndEq_eq_lt

end Atom

namespace Clause

theorem ordersStrictly : OrdersStrictly Clause :=
  ordersStrictly_of_lawful fun _ _ => Iff.rfl

theorem lt_iff {left right : Clause} :
    left < right ↔ left.premise.toList < right.premise.toList ∨
      left.premise = right.premise ∧ left.conclusion < right.conclusion := by
  have parts : compare left right =
      (compare left.premise.toList right.premise.toList).then (compare left.conclusion right.conclusion) := rfl
  have premises : left.premise.toList = right.premise.toList ↔ left.premise = right.premise := by
    obtain ⟨⟨_, _⟩, _⟩ := left
    obtain ⟨⟨_, _⟩, _⟩ := right
    simp
  rw [← ordersStrictly.compareLtIff, parts, Ordering.then_eq_lt, compare_lists_eq_lt_iff Atom.ordersStrictly,
    Std.LawfulEqCmp.compare_eq_iff_eq, premises, Atom.ordersStrictly.compareLtIff]

/-- The front of a premise is less than the premise, whatever the conclusions are. -/
example : ofList [.named "b", .named "a"] (.named "z") < ofList [.named "c", .named "a", .named "b"] .verum := by
  decide

theorem ofList_eq_ofList_iff {left right : List Atom} {conclusion : Atom} :
    ofList left conclusion = ofList right conclusion ↔ ∀ atom, atom ∈ left ↔ atom ∈ right := by
  constructor
  · intro same atom
    have premises : (SortedBy.ofList left : AtomSet) = SortedBy.ofList right := congrArg premise same
    rw [← SortedBy.mem_ofList, premises, SortedBy.mem_ofList]
  · exact ofList_congr conclusion

end Clause

/-- Symbols are in the order of their bytes, which is that of their code points. Of the atoms a clause is made from,
neither the order nor the repetition matters. -/
theorem ordered_strictly :
    (OrdersStrictly Atom ∧ Atom.verum < Atom.falsum ∧ (∀ symbol, Atom.falsum < .named symbol) ∧
      ∀ left right, Atom.named left < .named right ↔ Utf8.encode left < Utf8.encode right) ∧
    (∀ left right : String,
      Utf8.encode left < Utf8.encode right ↔ left.toList.map Char.toNat < right.toList.map Char.toNat) ∧
    (OrdersStrictly Clause ∧ (∀ clause : Clause, clause.premise.toList.Pairwise (· < ·)) ∧
      ∀ left right : Clause, left < right ↔ left.premise.toList < right.premise.toList ∨
        left.premise = right.premise ∧ left.conclusion < right.conclusion) ∧
    (∀ (premise : List Atom) (conclusion : Atom), (Clause.ofList premise conclusion).conclusion = conclusion ∧
      ∀ atom, atom ∈ (Clause.ofList premise conclusion).premise.toList ↔ atom ∈ premise) ∧
    ∀ (left right : List Atom) (conclusion : Atom),
      Clause.ofList left conclusion = Clause.ofList right conclusion ↔ ∀ atom, atom ∈ left ↔ atom ∈ right := by
  refine ⟨⟨Atom.ordersStrictly, Atom.verum_lt_falsum, Atom.falsum_lt_named, ?named⟩, ?points,
    ⟨Clause.ordersStrictly, fun clause => clause.premise.ascending, fun _ _ => Clause.lt_iff⟩,
    fun _ _ => ⟨rfl, fun _ => SortedBy.mem_ofList⟩, fun _ _ _ => Clause.ofList_eq_ofList_iff⟩
  case named =>
    intro left right
    rw [Atom.named_lt_named_iff, Utf8.encode_lt_iff]
  case points =>
    intro left right
    rw [Utf8.encode_lt_iff, String.lt_iff, map_toNat_lt_iff]

end HornLogic
