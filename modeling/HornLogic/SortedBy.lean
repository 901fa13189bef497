/-!
# Collections sorted by a key

A finite collection kept as a list whose keys strictly ascend. With an element as its own key this
is a set, with the first part of a pair as the key it is a map; both have one list for each content
(`SortedBy.ext_of_mem`), so equality is equality of contents.
-/
namespace HornLogic

set_option autoImplicit false

open Std

variable {Item Key : Type} [Ord Key] {key : Item → Key}

structure SortedBy {Item Key : Type} [Ord Key] (key : Item → Key) where
  toList : List Item
  ascending : toList.Pairwise fun left right => compare (key left) (key right) = .lt

namespace SortedBy

instance [DecidableEq Item] : DecidableEq (SortedBy key) := fun left right =>
  decidable_of_iff (left.toList = right.toList) <| by
    cases left; cases right; simp

instance : Membership Item (SortedBy key) where
  mem values item := item ∈ values.toList

theorem mem_def {item : Item} {values : SortedBy key} : item ∈ values ↔ item ∈ values.toList :=
  Iff.rfl

def empty : SortedBy key where
  toList := []
  ascending := .nil

instance : Inhabited (SortedBy key) := ⟨empty⟩

instance : EmptyCollection (SortedBy key) := ⟨empty⟩

def size (values : SortedBy key) : Nat :=
  values.toList.length

def isEmpty (values : SortedBy key) : Bool :=
  values.toList.isEmpty

def find? (values : SortedBy key) (wanted : Key) : Option Item :=
  values.toList.find? fun item => compare (key item) wanted == .eq

def contains (values : SortedBy key) (wanted : Key) : Bool :=
  values.toList.any fun item => compare (key item) wanted == .eq

def filter (test : Item → Bool) (values : SortedBy key) : SortedBy key where
  toList := values.toList.filter test
  ascending := values.ascending.filter test

theorem not_mem_empty (item : Item) : ¬ item ∈ (empty : SortedBy key) := List.not_mem_nil

theorem mem_filter {test : Item → Bool} {item : Item} {values : SortedBy key} :
    item ∈ values.filter test ↔ item ∈ values ∧ test item = true :=
  List.mem_filter

theorem contains_iff {wanted : Key} {values : SortedBy key} :
    values.contains wanted = true ↔ ∃ item ∈ values, compare (key item) wanted = .eq := by
  simp [contains, mem_def]

/-- Puts an element in its place in an ascending list, instead of one that has its key. -/
def place (key : Item → Key) (item : Item) : List Item → List Item
  | [] => [item]
  | first :: rest =>
    match compare (key item) (key first) with
    | .lt => item :: first :: rest
    | .eq => item :: rest
    | .gt => first :: place key item rest

theorem mem_place {item other : Item} {values : List Item} (member : other ∈ place key item values) :
    other = item ∨ other ∈ values := by
  induction values with
  | nil => simpa [place] using member
  | cons first rest ih =>
      unfold place at member
      split at member
      · simpa using member
      · rcases List.mem_cons.mp member with rfl | member
        · exact .inl rfl
        · exact .inr (List.mem_cons_of_mem _ member)
      · rcases List.mem_cons.mp member with rfl | member
        · exact .inr (List.mem_cons_self ..)
        · exact (ih member).imp id (List.mem_cons_of_mem _)

variable [TransOrd Key]

theorem ascending_place (item : Item) {values : List Item}
    (ascending : values.Pairwise fun left right => compare (key left) (key right) = .lt) :
    (place key item values).Pairwise fun left right => compare (key left) (key right) = .lt := by
  induction values with
  | nil => exact List.pairwise_singleton ..
  | cons first rest ih =>
      rw [List.pairwise_cons] at ascending
      obtain ⟨above, ascending⟩ := ascending
      unfold place
      split
      · rename_i before
        refine List.pairwise_cons.mpr ⟨?_, List.pairwise_cons.mpr ⟨above, ascending⟩⟩
        intro other member
        rcases List.mem_cons.mp member with rfl | member
        · exact before
        · exact TransCmp.lt_trans before (above other member)
      · rename_i same
        exact List.pairwise_cons.mpr
          ⟨fun other member => TransCmp.lt_of_eq_of_lt same (above other member), ascending⟩
      · rename_i after
        refine List.pairwise_cons.mpr ⟨?_, ih ascending⟩
        intro other member
        rcases mem_place member with rfl | member
        · exact OrientedCmp.lt_of_gt after
        · exact above other member

/-- The collection with an element, which takes the place of one that has its key. -/
def insert (values : SortedBy key) (item : Item) : SortedBy key where
  toList := place key item values.toList
  ascending := ascending_place item values.ascending

/-- The collection of some elements, the last of those that share a key. -/
def ofList (items : List Item) : SortedBy key :=
  items.foldl insert empty

private theorem mem_place_iff {item other : Item} {values : List Item}
    (ascending : values.Pairwise fun left right => compare (key left) (key right) = .lt) :
    other ∈ place key item values ↔
      other = item ∨ other ∈ values ∧ compare (key other) (key item) ≠ .eq := by
  induction values with
  | nil => simp [place]
  | cons first rest ih =>
      rw [List.pairwise_cons] at ascending
      obtain ⟨above, ascending⟩ := ascending
      have apart : ∀ later ∈ rest, compare (key item) (key first) ≠ .gt →
          compare (key later) (key item) ≠ .eq := by
        intro later member notAfter same
        have below := above later member
        rw [TransCmp.congr_right same] at below
        exact notAfter (OrientedCmp.gt_of_lt below)
      unfold place
      split
      · rename_i before
        have firstApart : compare (key first) (key item) ≠ .eq := by
          rw [OrientedCmp.gt_of_lt before]; decide
        have restApart := fun later member => apart later member (by rw [before]; decide)
        simp only [List.mem_cons]
        constructor
        · intro found
          rcases found with rfl | rfl | member
          · exact .inl rfl
          · exact .inr ⟨.inl rfl, firstApart⟩
          · exact .inr ⟨.inr member, restApart other member⟩
        · exact fun found => found.imp_right And.left
      · rename_i same
        have restApart := fun later member => apart later member (by rw [same]; decide)
        simp only [List.mem_cons]
        constructor
        · exact fun found => found.imp_right fun member => ⟨.inr member, restApart other member⟩
        · intro found
          rcases found with rfl | ⟨rfl | member, different⟩
          · exact .inl rfl
          · exact absurd (OrientedCmp.eq_symm same) different
          · exact .inr member
      · rename_i after
        have firstApart : compare (key first) (key item) ≠ .eq := by
          rw [OrientedCmp.lt_of_gt after]; decide
        simp only [List.mem_cons, ih ascending]
        constructor
        · intro found
          rcases found with rfl | rfl | ⟨member, different⟩
          · exact .inr ⟨.inl rfl, firstApart⟩
          · exact .inl rfl
          · exact .inr ⟨.inr member, different⟩
        · intro found
          rcases found with rfl | ⟨rfl | member, different⟩
          · exact .inr (.inl rfl)
          · exact .inl rfl
          · exact .inr (.inr ⟨member, different⟩)

/-- An insertion adds its element and removes the one that had its key, if any. -/
theorem mem_insert {item other : Item} {values : SortedBy key} :
    other ∈ values.insert item ↔
      other = item ∨ other ∈ values ∧ compare (key other) (key item) ≠ .eq :=
  mem_place_iff values.ascending

theorem nodup (values : SortedBy key) : values.toList.Nodup :=
  values.ascending.imp fun {left right} before same => by
    have itself : compare (key right) (key right) = .eq := ReflCmp.compare_self
    rw [same, itself] at before
    cases before

/-- Leaving one element out lowers a count by one. -/
theorem countP_ne_add_one [DecidableEq Item] (test : Item → Bool) {values : SortedBy key}
    {item : Item} (member : item ∈ values) (passes : test item = true) :
    values.toList.countP (fun other => test other && decide (other ≠ item)) + 1 =
      values.toList.countP test := by
  have apart := List.perm_cons_erase (mem_def.mp member)
  have leftOut : item ∉ values.toList.erase item := values.nodup.not_mem_erase
  rw [apart.countP_eq test, apart.countP_eq, List.countP_cons_of_pos passes,
    List.countP_cons_of_neg (by simp)]
  apply congrArg (· + 1)
  apply List.countP_congr
  intro other listed
  have different : other ≠ item := fun same => leftOut (same ▸ listed)
  simp [different]

/-- Collections with the same elements are the same collection. -/
theorem ext_of_mem {left right : SortedBy key} (same : ∀ item, item ∈ left ↔ item ∈ right) :
    left = right := by
  have lists : left.toList = right.toList := by
    refine List.Perm.eq_of_pairwise (fun first second _ _ before after => ?_)
      left.ascending right.ascending
      ((List.perm_ext_iff_of_nodup left.nodup right.nodup).mpr same)
    rw [OrientedCmp.gt_of_lt before] at after
    cases after
  cases left
  cases right
  cases lists
  rfl

private theorem eq_of_keys_eq {left right : Item} {values : List Item}
    (ascending : values.Pairwise fun left right => compare (key left) (key right) = .lt)
    (leftMember : left ∈ values) (rightMember : right ∈ values)
    (same : compare (key left) (key right) = .eq) : left = right := by
  induction values with
  | nil => cases leftMember
  | cons first rest ih =>
      rw [List.pairwise_cons] at ascending
      rcases List.mem_cons.mp leftMember with rfl | leftLater
      · rcases List.mem_cons.mp rightMember with rfl | rightLater
        · rfl
        · rw [ascending.1 right rightLater] at same
          cases same
      · rcases List.mem_cons.mp rightMember with rfl | rightLater
        · rw [OrientedCmp.gt_of_lt (ascending.1 left leftLater)] at same
          cases same
        · exact ih ascending.2 leftLater rightLater

/-- The element found is the one that has the key. -/
theorem find?_eq_some_iff {wanted : Key} {item : Item} {values : SortedBy key} :
    values.find? wanted = some item ↔ item ∈ values ∧ compare (key item) wanted = .eq := by
  constructor
  · intro found
    exact ⟨List.mem_of_find?_eq_some found, by simpa using List.find?_some found⟩
  · intro given
    rcases given with ⟨member, same⟩
    cases found : values.find? wanted with
    | none =>
        have missing := List.find?_eq_none.mp found item member
        simp [same] at missing
    | some other =>
        have otherSame : compare (key other) wanted = .eq := by simpa using List.find?_some found
        rw [eq_of_keys_eq values.ascending (List.mem_of_find?_eq_some found) member
          (TransCmp.eq_trans otherSame (OrientedCmp.eq_symm same))]

/-- Elements with different keys all stay. -/
theorem mem_ofList_of_apart {items : List Item} {item : Item}
    (apart : items.Pairwise fun left right => compare (key left) (key right) ≠ .eq) :
    item ∈ (ofList items : SortedBy key) ↔ item ∈ items := by
  suffices general : ∀ start : SortedBy key,
      (∀ old ∈ start, ∀ new ∈ items, compare (key old) (key new) ≠ .eq) →
        (item ∈ items.foldl insert start ↔ item ∈ start ∨ item ∈ items) by
    simpa [ofList, not_mem_empty] using general empty (by simp [not_mem_empty])
  induction items with
  | nil => simp
  | cons first rest ih =>
      rw [List.pairwise_cons] at apart
      intro start startApart
      rw [List.foldl_cons, ih apart.2, mem_insert, List.mem_cons]
      · have kept : item ∈ start → compare (key item) (key first) ≠ .eq := fun old =>
          startApart item old first List.mem_cons_self
        grind
      · intro old member new later
        rcases mem_insert.mp member with rfl | older
        · exact apart.1 new later
        · exact startApart old older.1 new (List.mem_cons_of_mem first later)

section Sets

/-! ## Sets

An element that is its own key is in the collection or not, and nothing else is replaced. -/

variable {Member : Type} [Ord Member] [TransOrd Member] [LawfulEqOrd Member]

theorem mem_insert_self_key {item other : Member} {values : SortedBy (id : Member → Member)} :
    other ∈ values.insert item ↔ other = item ∨ other ∈ values := by
  rw [mem_insert]
  simp only [id_eq, ne_eq, LawfulEqCmp.compare_eq_iff_eq]
  by_cases same : other = item <;> simp [same]

theorem mem_ofList {item : Member} {items : List Member} :
    item ∈ (ofList items : SortedBy (id : Member → Member)) ↔ item ∈ items := by
  suffices general : ∀ start : SortedBy (id : Member → Member),
      item ∈ items.foldl insert start ↔ item ∈ start ∨ item ∈ items by
    simpa [ofList, not_mem_empty] using general empty
  induction items with
  | nil => simp
  | cons first rest ih =>
      intro start
      rw [List.foldl_cons, ih, mem_insert_self_key, List.mem_cons]
      grind

omit [TransOrd Member] in
theorem contains_eq_true_iff {item : Member} {values : SortedBy (id : Member → Member)} :
    values.contains item = true ↔ item ∈ values := by
  simp [contains_iff]

omit [LawfulEqOrd Member] in
/-- An ascending list of the elements of a set is its list. -/
theorem eq_toList_of_mem {items : List Member} {values : SortedBy (id : Member → Member)}
    (ascending : items.Pairwise fun left right => compare left right = .lt)
    (same : ∀ item, item ∈ items ↔ item ∈ values) : items = values.toList := by
  have collections : (⟨items, ascending⟩ : SortedBy (id : Member → Member)) = values :=
    ext_of_mem same
  exact congrArg toList collections

end Sets

end SortedBy
end HornLogic
