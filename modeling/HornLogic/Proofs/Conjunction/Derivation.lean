import HornLogic.Conjunction
import HornLogic.Proofs.Conjunction.Steps
import HornLogic.Proofs.Outcome

/-!
# Reading follows the grammar

A scope is read with success exactly when the grammar derives its text, and then to the symbols it
derives (`symbols_eq_ok_iff_derives`). Between the two stands the relation of a scope to the
symbols that a run of steps takes from it: it has the cases of the reading and no recursion to
justify, so both directions are inductions over it or over the derivation.
-/
namespace HornLogic.Conjunction

set_option autoImplicit false

open Text Scope

/-- The scope is read by successful steps alone. -/
inductive Reads : Scope → List (List Char) → Prop where
  | nothing {scope : Scope} (opens : scope.opening = .ok .nothing) : Reads scope []
  | symbol {scope after next : Scope} {characters : List Char} {later : List (List Char)}
      (opens : scope.opening = .ok (.symbol characters after))
      (skips : after.skipSeparator = .ok next) (others : Reads next later) :
      Reads scope (characters :: later)
  | group {scope inside after next : Scope} {inner later : List (List Char)}
      (opens : scope.opening = .ok (.group inside after)) (content : Reads inside inner)
      (skips : after.skipSeparator = .ok next) (others : Reads next later) :
      Reads scope (inner ++ later)

theorem reads_of_symbols {scope : Scope} {symbols : List (List Char)}
    (read : scope.symbols = .ok symbols) : Reads scope symbols := by
  fun_induction Scope.symbols scope generalizing symbols with
  | case1 scope fault opens => cases read
  | case2 scope opens =>
      cases read
      exact .nothing opens
  | case3 scope characters after opens fault skips => cases read
  | case4 scope characters after opens next skips ih =>
      obtain ⟨later, others, rfl⟩ := map_eq_ok_iff.mp read
      exact .symbol opens skips (ih others)
  | case5 scope inside after opens fault fails => cases read
  | case6 scope inside after opens inner content fault skips => cases read
  | case7 scope inside after opens inner content next skips ihInside ihNext =>
      obtain ⟨later, others, rfl⟩ := map_eq_ok_iff.mp read
      exact .group opens (ihInside content) skips (ihNext others)

theorem symbols_eq (scope : Scope) :
    scope.symbols =
      match scope.opening with
      | .error fault => .error fault
      | .ok .nothing => .ok []
      | .ok (.symbol characters after) =>
        match after.skipSeparator with
        | .error fault => .error fault
        | .ok next => next.symbols.map (characters :: ·)
      | .ok (.group inside after) =>
        match inside.symbols with
        | .error fault => .error fault
        | .ok inner =>
          match after.skipSeparator with
          | .error fault => .error fault
          | .ok next => next.symbols.map (inner ++ ·) := by
  rw [Scope.symbols]
  split
  · rename_i fault opens
    rw [opens]
  · rename_i opens
    rw [opens]
  · rename_i characters after opens
    rw [opens]
    dsimp only
    split <;> rename_i skips <;> rw [skips]
  · rename_i inside after opens
    rw [opens]
    dsimp only
    cases content : inside.symbols with
    | error fault => rfl
    | ok inner =>
        dsimp only
        split <;> rename_i skips <;> rw [skips]

theorem symbols_of_reads {scope : Scope} {symbols : List (List Char)}
    (reads : Reads scope symbols) : scope.symbols = .ok symbols := by
  induction reads with
  | nothing opens => rw [symbols_eq, opens]
  | symbol opens skips others ih =>
      rw [symbols_eq, opens]
      dsimp only
      rw [skips]
      dsimp only
      rw [ih]
      rfl
  | group opens content skips others ihContent ihOthers =>
      rw [symbols_eq, opens]
      dsimp only
      rw [ihContent]
      dsimp only
      rw [skips]
      dsimp only
      rw [ihOthers]
      rfl

theorem DerivesConjunct.begins {conjunct : List Char} {symbols : List (List Char)}
    (part : DerivesConjunct conjunct symbols) :
    ∃ first rest, conjunct = first :: rest ∧ inSymbol first = true ∧ first ≠ closer := by
  cases part with
  | symbol shaped =>
      obtain ⟨first, rest, rfl, notOpener, notCloser⟩ := shaped.begins
      exact ⟨first, rest, rfl, shaped.solid first List.mem_cons_self, notCloser⟩
  | group content balanced => exact ⟨opener, _, rfl, inSymbol_opener, by decide⟩

theorem DerivesConjunct.derives {conjunct : List Char} {symbols : List (List Char)}
    (part : DerivesConjunct conjunct symbols) : Derives conjunct symbols := by
  have alone : Derives ([] ++ conjunct ++ []) symbols := .last rfl part rfl
  simpa using alone

/-- Every conjunction that is not blank has a character that can begin a conjunct. -/
theorem Derives.blank_or_begins {text : List Char} {symbols : List (List Char)}
    (derived : Derives text symbols) :
    (allBlank text = true ∧ symbols = []) ∨
      ∃ character ∈ text, inSymbol character = true ∧ character ≠ closer := by
  cases derived with
  | blank blank => exact .inl ⟨blank, rfl⟩
  | last blankBefore part blankAfter =>
      obtain ⟨first, rest, rfl, begins⟩ := part.begins
      exact .inr ⟨first, by simp, begins⟩
  | more blankBefore part blankAfter continues others =>
      obtain ⟨first, rest, rfl, begins⟩ := part.begins
      exact .inr ⟨first, by simp, begins⟩

theorem not_allBlank {text : List Char} (begins : ∃ character ∈ text, inSymbol character = true) :
    allBlank text = false := by
  obtain ⟨character, member, solid⟩ := begins
  rw [allBlank, List.all_eq_false]
  exact ⟨character, member, by simp [Scope.solid_of_inSymbol solid]⟩

/-- A conjunct and what is read after it make up a conjunction. -/
theorem Derives.of_skips {before conjunct : List Char} {own later : List (List Char)}
    {after next : Scope} (blank : allBlank before = true) (part : DerivesConjunct conjunct own)
    (skips : after.Skips next) (others : Derives next.text later) :
    Derives (before ++ conjunct ++ after.text) (own ++ later) := by
  cases skips with
  | ended blankAfter cut =>
      have empty : next.text = [] := by simpa using cut.text
      have none : later = [] := by
        rcases others.blank_or_begins with ⟨_, none⟩ | ⟨character, member, _⟩
        · exact none
        · rw [empty] at member
          cases member
      rw [none, List.append_nil]
      exact .last blank part blankAfter
  | @separated front _ blankAfter cut follows =>
      have continues : allBlank next.text = false := by
        obtain ⟨character, member, solid, _⟩ := follows
        exact not_allBlank ⟨character, member, solid⟩
      have texts : before ++ conjunct ++ after.text =
          before ++ conjunct ++ front ++ separator :: next.text := by
        rw [cut.text]
        simp
      rw [texts]
      exact .more blank part blankAfter continues others

theorem derives_of_reads {scope : Scope} {symbols : List (List Char)}
    (reads : Reads scope symbols) : Derives scope.text symbols := by
  induction reads with
  | nothing opens =>
      cases opening_eq_ok_iff.mp opens with
      | nothing blank => exact .blank blank
  | symbol opens skips others ih =>
      cases opening_eq_ok_iff.mp opens with
      | symbol blank shaped stops cut =>
          rw [cut.text]
          exact .of_skips blank (.symbol shaped) (skipSeparator_eq_ok_iff.mp skips) ih
  | group opens content skips others ihContent ihOthers =>
      cases opening_eq_ok_iff.mp opens with
      | group blank balanced cut begins =>
          rw [cut.text]
          exact .of_skips blank (.group ihContent balanced) (skipSeparator_eq_ok_iff.mp skips)
            ihOthers

mutual

theorem reads_of_derives {text : List Char} {symbols : List (List Char)}
    (derived : Derives text symbols) (position : Nat) : Reads ⟨position, text⟩ symbols := by
  match derived with
  | .blank blank => exact .nothing (opening_eq_ok_iff.mpr (.nothing blank))
  | @Derives.last before conjunct after _ blank part blankAfter =>
      let remaining : Scope := ⟨position + Utf8.size (before ++ conjunct), after⟩
      let ended : Scope := ⟨remaining.position + Utf8.size after, []⟩
      have skips : remaining.Skips ended := .ended blankAfter ⟨(List.append_nil _).symm, rfl⟩
      have nothing : Reads ended [] := .nothing (opening_eq_ok_iff.mpr (.nothing rfl))
      have cut : Scope.Cut ⟨position, before ++ conjunct ++ after⟩ (before ++ conjunct) remaining :=
        ⟨rfl, rfl⟩
      have read := reads_of_conjunct part blank cut skips nothing
      rwa [List.append_nil] at read
  | @Derives.more before conjunct after rest _ _ blank part blankAfter continues others =>
      let remaining : Scope :=
        ⟨position + Utf8.size (before ++ conjunct), after ++ separator :: rest⟩
      let next : Scope := ⟨remaining.position + Utf8.size (after ++ [separator]), rest⟩
      have follows : ∃ character ∈ rest, inSymbol character = true ∧ character ≠ closer := by
        rcases others.blank_or_begins with ⟨nothing, _⟩ | begins
        · rw [continues] at nothing
          cases nothing
        · exact begins
      have skips : remaining.Skips next :=
        .separated blankAfter ⟨by simp [remaining, next], rfl⟩ follows
      have cut : Scope.Cut ⟨position, before ++ conjunct ++ after ++ separator :: rest⟩
          (before ++ conjunct) remaining := ⟨by simp [remaining], rfl⟩
      exact reads_of_conjunct part blank cut skips (reads_of_derives others next.position)

theorem reads_of_conjunct {before conjunct : List Char} {own later : List (List Char)}
    {scope after next : Scope} (part : DerivesConjunct conjunct own)
    (blank : allBlank before = true) (cut : scope.Cut (before ++ conjunct) after)
    (skips : after.Skips next) (others : Reads next later) : Reads scope (own ++ later) := by
  match part with
  | .symbol shaped =>
      exact .symbol (opening_eq_ok_iff.mpr (.symbol blank shaped skips.stops cut))
        (skipSeparator_eq_ok_iff.mpr skips) others
  | .group content balanced =>
      exact .group (opening_eq_ok_iff.mpr (.group blank balanced cut rfl))
        (reads_of_derives content _) (skipSeparator_eq_ok_iff.mpr skips) others

end

theorem symbols_eq_ok_iff_derives (scope : Scope) {symbols : List (List Char)} :
    scope.symbols = .ok symbols ↔ Derives scope.text symbols := by
  constructor
  · intro read
    exact derives_of_reads (reads_of_symbols read)
  · intro derived
    exact symbols_of_reads (reads_of_derives derived scope.position)

instance (text : List Char) (symbols : List (List Char)) : Decidable (Derives text symbols) :=
  decidable_of_iff ((⟨0, text⟩ : Scope).symbols.toOption = some symbols) <| by
    rw [← symbols_eq_ok_iff_derives ⟨0, text⟩]
    cases (⟨0, text⟩ : Scope).symbols <;> simp [Except.toOption]

theorem Derives.unique {text : List Char} {left right : List (List Char)}
    (one : Derives text left) (other : Derives text right) : left = right := by
  have readOne := (symbols_eq_ok_iff_derives ⟨0, text⟩).mpr one
  have readOther := (symbols_eq_ok_iff_derives ⟨0, text⟩).mpr other
  exact Except.ok.inj (readOne.symm.trans readOther)

theorem Reads.isSymbol {scope : Scope} {symbols : List (List Char)} (reads : Reads scope symbols) :
    ∀ symbol ∈ symbols, IsSymbol symbol := by
  induction reads with
  | nothing opens =>
      intro symbol member
      cases member
  | symbol opens skips others ih =>
      cases opening_eq_ok_iff.mp opens with
      | symbol blank shaped stops cut => exact List.forall_mem_cons.mpr ⟨shaped, ih⟩
  | group opens content skips others ihContent ihOthers =>
      exact List.forall_mem_append.mpr ⟨ihContent, ihOthers⟩

theorem Derives.isSymbol {text : List Char} {symbols : List (List Char)}
    (derived : Derives text symbols) : ∀ symbol ∈ symbols, IsSymbol symbol :=
  (reads_of_derives derived 0).isSymbol

end HornLogic.Conjunction
