import HornLogic.Text.Blank

/-!
# Runs of characters

The longest run at the front of a text and what it leaves are the only way to cut the text into
elements that pass a test and a rest that does not begin with one. Trimming leaves a text that
begins with no blank, so it leaves nothing of a blank text and of no other.
-/
namespace HornLogic.Text

set_option autoImplicit false

variable {Item : Type} {test : Item → Bool}

/-- A text that is empty or begins with an element that fails the test. -/
def Stops (test : Item → Bool) (text : List Item) : Prop :=
  ∀ first ∈ text.head?, test first = false

theorem stops_nil : Stops test [] := by
  intro first member
  cases member

theorem stops_cons_iff {first : Item} {rest : List Item} :
    Stops test (first :: rest) ↔ test first = false := by
  simp [Stops]

theorem stops_dropWhile (test : Item → Bool) (text : List Item) :
    Stops test (text.dropWhile test) := by
  have head := List.head?_dropWhile_not test text
  intro first member
  rw [Option.mem_def] at member
  simpa [member] using head

theorem takeWhile_eq_nil {text : List Item} (stops : Stops test text) :
    text.takeWhile test = [] := by
  cases text with
  | nil => rfl
  | cons first rest => rw [List.takeWhile_cons, stops_cons_iff.mp stops, if_neg Bool.false_ne_true]

theorem dropWhile_eq_self {text : List Item} (stops : Stops test text) :
    text.dropWhile test = text := by
  cases text with
  | nil => rfl
  | cons first rest => rw [List.dropWhile_cons, stops_cons_iff.mp stops, if_neg Bool.false_ne_true]

theorem run_eq_iff {text front rest : List Item} :
    text.takeWhile test = front ∧ text.dropWhile test = rest ↔
      text = front ++ rest ∧ front.all test = true ∧ Stops test rest := by
  constructor
  · intro ⟨taken, left⟩
    subst taken left
    exact ⟨List.takeWhile_append_dropWhile.symm, List.all_takeWhile, stops_dropWhile test text⟩
  · intro ⟨parts, passes, stops⟩
    subst parts
    have each := List.all_eq_true.mp passes
    constructor
    · rw [List.takeWhile_append_of_pos each, takeWhile_eq_nil stops, List.append_nil]
    · rw [List.dropWhile_append_of_pos each, dropWhile_eq_self stops]

theorem dropTrailing_cons {first : Item} (rest : List Item) (fails : test first = false) :
    dropTrailing test (first :: rest) = first :: dropTrailing test rest := by
  rw [dropTrailing, dropTrailing, List.reverse_cons, List.dropWhile_append]
  cases rest.reverse.dropWhile test with
  | nil => simp [fails]
  | cons last others => simp

theorem stops_trimBoth (test : Item → Bool) (text : List Item) :
    Stops test (trimBoth test text) := by
  have stops := stops_dropWhile test text
  rw [trimBoth]
  cases left : text.dropWhile test with
  | nil => exact stops_nil
  | cons first rest =>
      rw [left, stops_cons_iff] at stops
      rw [dropTrailing_cons rest stops, stops_cons_iff]
      exact stops

theorem dropTrailing_dropTrailing (test : Item → Bool) (text : List Item) :
    dropTrailing test (dropTrailing test text) = dropTrailing test text := by
  rw [dropTrailing, dropTrailing, List.reverse_reverse, dropWhile_eq_self (stops_dropWhile test _)]

theorem trim_trim (text : List Char) : trim (trim text) = trim text := by
  have front : (trim text).dropWhile isBlank = trim text := dropWhile_eq_self (stops_trimBoth isBlank text)
  change dropTrailing isBlank ((trim text).dropWhile isBlank) = trim text
  rw [front]
  exact dropTrailing_dropTrailing isBlank _

theorem allBlank_trim_iff {text : List Char} : allBlank (trim text) = true ↔ trim text = [] := by
  have stops := stops_trimBoth isBlank text
  rw [← trim] at stops
  constructor
  · intro blank
    cases left : trim text with
    | nil => rfl
    | cons first rest =>
        rw [left, stops_cons_iff] at stops
        rw [left, allBlank, List.all_cons, stops] at blank
        cases blank
  · intro empty
    rw [empty]
    rfl

end HornLogic.Text
