import HornLogic.Clause.Written
import HornLogic.Proofs.Conjunction.Padding

/-!
# Reading what is written

A clause that is read off a line is written with symbols of that line, which lie between its separators and
its arrow. Conversely the line written for a clause with such symbols is read to that clause again, in
whatever order its premise is written. So just these clauses can be expressed
(`expressible_of_parse`, `parse_write`).
-/
namespace HornLogic

set_option autoImplicit false

open Text

namespace Conjunction

theorem conjunct_within (before conjunct after rest : List Char) :
    conjunct <:+: before ++ conjunct ++ after ++ separator :: rest :=
  (List.infix_append before conjunct after).trans (List.prefix_append _ _).isInfix

theorem rest_within (before conjunct after rest : List Char) :
    rest <:+: before ++ conjunct ++ after ++ separator :: rest :=
  ((List.suffix_cons separator rest).trans (List.suffix_append _ _)).isInfix

mutual

/-- A symbol of a conjunction stands in its text. -/
theorem Derives.infix_of_mem {text : List Char} {symbols : List (List Char)}
    (derived : Derives text symbols) : ∀ symbol ∈ symbols, symbol <:+: text := by
  match derived with
  | .blank _ => exact List.forall_mem_nil _
  | .last _ part _ =>
      intro symbol member
      exact (part.infix_of_mem symbol member).trans (List.infix_append _ _ _)
  | @Derives.more before conjunct after rest _ _ _ part _ _ others =>
      intro symbol member
      rcases List.mem_append.mp member with here | later
      · exact (part.infix_of_mem symbol here).trans (conjunct_within before conjunct after rest)
      · exact (others.infix_of_mem symbol later).trans (rest_within before conjunct after rest)

theorem DerivesConjunct.infix_of_mem {conjunct : List Char} {symbols : List (List Char)}
    (part : DerivesConjunct conjunct symbols) : ∀ symbol ∈ symbols, symbol <:+: conjunct := by
  match part with
  | .symbol _ => exact List.forall_mem_singleton.mpr (List.infix_refl _)
  | @DerivesConjunct.group inside _ content _ =>
      intro symbol member
      exact (content.infix_of_mem symbol member).trans (List.infix_append [opener] inside [closer])

end

/-- Symbols with separators between them are a conjunction that writes just them. -/
theorem derives_intercalate {symbols : List (List Char)} (shaped : ∀ symbol ∈ symbols, IsSymbol symbol) :
    Derives ([' ', '&', ' '].intercalate symbols) symbols := by
  induction symbols with
  | nil => exact .blank rfl
  | cons symbol rest ih =>
      have alone := (DerivesConjunct.symbol (shaped symbol List.mem_cons_self)).derives
      cases rest with
      | nil => simpa using alone
      | cons next later =>
          have others := ih fun other member => shaped other (List.mem_cons_of_mem _ member)
          obtain ⟨first, behind, begins, _⟩ := (shaped next (by simp)).begins
          have listed : first ∈ next := by simp [begins]
          have solid := (shaped next (by simp)).solid first listed
          have continues : allBlank ([' ', '&', ' '].intercalate (next :: later)) = false :=
            not_allBlank ⟨first, (others.infix_of_mem next List.mem_cons_self).subset listed, solid⟩
          have present := (shaped symbol List.mem_cons_self).not_blank
          rw [List.intercalate_cons_cons]
          exact alone.join_spaced others present continues

end Conjunction

theorem not_hasArrow_intercalate {symbols : List (List Char)} (plain : ∀ symbol ∈ symbols, ¬ HasArrow symbol) :
    ¬ HasArrow ([' ', '&', ' '].intercalate symbols) := by
  induction symbols with
  | nil => decide
  | cons symbol rest ih =>
      have plainSymbol := plain symbol List.mem_cons_self
      have plainRest := ih fun other member => plain other (List.mem_cons_of_mem symbol member)
      cases rest with
      | nil => simpa using plainSymbol
      | cons next later =>
          rw [List.intercalate_cons_cons, hasArrow_apart_iff (by decide) (by simp), not_or]
          exact ⟨plainSymbol, plainRest⟩

namespace Atom

theorem ofSymbol_eq_named_iff {text symbol : String} :
    ofSymbol text = .ok (.named symbol) ↔
      text = symbol ∧ allBlank symbol.toList = false ∧ symbol ≠ "0" ∧ symbol ≠ "1" := by
  unfold ofSymbol
  constructor
  · intro read
    split at read
    · cases read
    · rename_i solid
      split at read
      · cases read
      · rename_i notFalsum
        split at read
        · cases read
        · rename_i notVerum
          cases read
          exact ⟨rfl, Bool.not_eq_true _ ▸ solid, notFalsum, notVerum⟩
  · intro ⟨same, solid, notFalsum, notVerum⟩
    rw [same, solid, if_neg Bool.false_ne_true, if_neg notFalsum, if_neg notVerum]

theorem ofSymbol_write {atom : Atom} (writable : ∀ symbol, atom = .named symbol → IsWritable symbol)
    (solid : allBlank atom.write.toList = false) : ofSymbol (String.ofList atom.write.toList) = .ok atom := by
  rw [String.ofList_toList]
  cases atom with
  | verum => rfl
  | falsum => rfl
  | named symbol =>
      have shaped := writable symbol rfl
      exact ofSymbol_eq_named_iff.mpr ⟨rfl, solid, shaped.notFalsum, shaped.notVerum⟩

theorem not_hasArrow_write {atom : Atom} (writable : ∀ symbol, atom = .named symbol → IsWritable symbol) :
    ¬ HasArrow atom.write.toList := by
  cases atom with
  | verum => decide
  | falsum => decide
  | named symbol => exact (writable symbol rfl).noArrow

theorem isSymbol_write {atom : Atom} (writable : ∀ symbol, atom = .named symbol → IsWritablePremise symbol) :
    Conjunction.IsSymbol atom.write.toList := by
  cases atom with
  | verum => exact ⟨List.all_eq_true.mp (by decide), '1', [], rfl, by decide, by decide⟩
  | falsum => exact ⟨List.all_eq_true.mp (by decide), '0', [], rfl, by decide, by decide⟩
  | named symbol =>
      have shaped := writable symbol rfl
      constructor
      · intro character member
        have solid := shaped.solid character member
        simp only [Conjunction.inSymbol, solid.1, Conjunction.separator, Bool.not_false, Bool.true_and, bne_iff_ne]
        exact solid.2
      · cases characters : symbol.toList with
        | nil => exact absurd (String.toList_eq_nil_iff.mp characters) shaped.present
        | cons first rest =>
            have begins := shaped.begins first (by simp [characters])
            exact ⟨first, rest, characters, begins.1, begins.2⟩

theorem isWritablePremise_of_isSymbol {symbol : String} (shaped : Conjunction.IsSymbol symbol.toList)
    (notFalsum : symbol ≠ "0") (notVerum : symbol ≠ "1") (plain : ¬ HasArrow symbol.toList) :
    IsWritablePremise symbol := by
  obtain ⟨first, rest, begins, notOpener, notCloser⟩ := shaped.begins
  refine ⟨⟨?_, notFalsum, notVerum, plain⟩, ?_, ?_⟩
  · rintro rfl
    cases begins
  · intro character member
    have solid := shaped.solid character member
    simp only [Conjunction.inSymbol, Bool.and_eq_true, Bool.not_eq_true', bne_iff_ne] at solid
    exact solid
  · intro head isHead
    rw [begins] at isHead
    cases isHead
    exact ⟨notOpener, notCloser⟩

theorem trim_write {atom : Atom} (writable : ∀ symbol, atom = .named symbol → IsWritableConclusion symbol) :
    trim atom.write.toList = atom.write.toList ∧ allBlank atom.write.toList = false := by
  cases atom with
  | verum => decide
  | falsum => decide
  | named symbol =>
      have shaped := writable symbol rfl
      refine ⟨shaped.trimmed, ?_⟩
      rw [← Bool.not_eq_true]
      intro blank
      have empty := allBlank_trim_iff.mp (shaped.trimmed.symm ▸ blank)
      exact shaped.present (String.toList_eq_nil_iff.mp (shaped.trimmed.symm.trans empty))

end Atom

namespace Conjunction

variable {order : List Atom}

theorem toList_write (order : List Atom) :
    (write order).toList = [' ', '&', ' '].intercalate (order.map fun atom => atom.write.toList) := by
  simp [write, String.toList_intercalate, Function.comp_def]

theorem not_hasArrow_write
    (writable : ∀ atom ∈ order, ∀ symbol, atom = .named symbol → Atom.IsWritable symbol) :
    ¬ HasArrow (write order).toList := by
  rw [toList_write]
  apply not_hasArrow_intercalate
  rw [List.forall_mem_map]
  exact fun atom listed => Atom.not_hasArrow_write (writable atom listed)

theorem atoms_write
    (writable : ∀ atom ∈ order, ∀ symbol, atom = .named symbol → Atom.IsWritablePremise symbol) :
    atoms (trim ((write order).toList ++ [' '])) = .ok order := by
  have shaped : ∀ symbol ∈ order.map fun atom => atom.write.toList, IsSymbol symbol :=
    List.forall_mem_map.mpr fun atom listed => Atom.isSymbol_write (writable atom listed)
  have derived : Derives ((write order).toList ++ [' ']) (order.map fun atom => atom.write.toList) := by
    rw [toList_write]
    exact (derives_intercalate shaped).append_blank (by decide)
  refine atoms_eq_ok_iff.mpr ⟨_, derives_trim_iff.mpr derived, mapM_map_eq_ok ?_⟩
  intro atom listed
  have solid := (Atom.isSymbol_write (writable atom listed)).not_blank
  exact Atom.ofSymbol_write (fun symbol named => (writable atom listed symbol named).toIsWritable) solid

end Conjunction

theorem Atom.ofSymbol_trim_write {atom : Atom}
    (writable : ∀ symbol, atom = .named symbol → IsWritableConclusion symbol) :
    ofSymbol (String.ofList (trim (' ' :: atom.write.toList))) = .ok atom := by
  obtain ⟨trimmed, solid⟩ := trim_write writable
  have dropped : trim ([' '] ++ atom.write.toList) = trim atom.write.toList := trim_blank_append (by decide) _
  rw [List.singleton_append, trimmed] at dropped
  rw [dropped]
  exact ofSymbol_write (fun symbol named => (writable symbol named).toIsWritable) solid

namespace Clause

variable {clause : Clause}

/-- The symbols on a line that is read as a clause can be written. -/
theorem expressible_of_parse {line : String} (read : parse line = .ok clause) : clause.Expressible := by
  obtain ⟨left, right, premise, conclusion, sole, readPremise, readConclusion, rfl⟩ := parse_eq_ok_iff.mp read
  obtain ⟨_, leftPlain, rightPlain⟩ := soleArrow_iff.mp sole
  have plainPart : ∀ {part text : List Char}, ¬ HasArrow text → part <:+: trim text → ¬ HasArrow part :=
    fun plain within arrow => plain (arrow.of_part (within.trans (trim_isInfix _)))
  constructor
  · intro symbol member
    obtain ⟨symbols, derived, named⟩ := Conjunction.atoms_eq_ok_iff.mp readPremise
    obtain ⟨characters, listed, symbolRead⟩ := exists_of_mem_results named _ (SortedBy.mem_ofList.mp member)
    have shaped := derived.isSymbol characters listed
    have plain := plainPart leftPlain (derived.infix_of_mem characters listed)
    rw [← String.toList_ofList (l := characters)] at shaped plain
    obtain ⟨rfl, _, notFalsum, notVerum⟩ := Atom.ofSymbol_eq_named_iff.mp symbolRead
    exact Atom.isWritablePremise_of_isSymbol shaped notFalsum notVerum plain
  · rintro symbol rfl
    have plain := plainPart rightPlain (List.infix_refl _)
    have trimmed := trim_trim right
    obtain ⟨rfl, solid, notFalsum, notVerum⟩ := Atom.ofSymbol_eq_named_iff.mp readConclusion
    rw [← String.toList_ofList (l := trim right)] at plain trimmed
    refine ⟨⟨?_, notFalsum, notVerum, plain⟩, trimmed⟩
    intro empty
    rw [empty] at solid
    cases solid

/-- The sides of the line written for a clause. -/
theorem soleArrow_write {order : List Atom} {conclusion : Atom}
    (premise : ∀ atom ∈ order, ∀ symbol, atom = .named symbol → Atom.IsWritable symbol)
    (concluded : ∀ symbol, conclusion = .named symbol → Atom.IsWritable symbol) :
    SoleArrow (write order conclusion).toList ((Conjunction.write order).toList ++ [' '])
      (' ' :: conclusion.write.toList) := by
  refine soleArrow_iff.mpr ⟨by simp [write], ?_, ?_⟩
  · rw [← List.append_nil (_ ++ _), hasArrow_apart_iff (by decide) (by simp), not_or]
    exact ⟨Conjunction.not_hasArrow_write premise, by decide⟩
  · change ¬ HasArrow ([] ++ [' '] ++ conclusion.write.toList)
    rw [hasArrow_apart_iff (by decide) (by simp), not_or]
    exact ⟨by decide, Atom.not_hasArrow_write concluded⟩

/-- A clause that can be written is read off its line, whatever the order of its premise there. -/
theorem parse_write (expressible : clause.Expressible) {order : List Atom}
    (same : ∀ atom, atom ∈ order ↔ atom ∈ clause.premise) :
    parse (write order clause.conclusion) = .ok clause := by
  have premise : ∀ atom ∈ order, ∀ symbol, atom = .named symbol → Atom.IsWritablePremise symbol := by
    rintro atom listed symbol rfl
    exact expressible.premise symbol ((same _).mp listed)
  have sole := soleArrow_write (fun atom listed symbol named => (premise atom listed symbol named).toIsWritable)
    fun symbol named => (expressible.conclusion symbol named).toIsWritable
  have readPremise := Conjunction.atoms_write premise
  have readConclusion := Atom.ofSymbol_trim_write expressible.conclusion
  have built : clause = .ofList order clause.conclusion := by
    have premises : (SortedBy.ofList order : AtomSet) = clause.premise := by
      apply SortedBy.ext_of_mem
      simpa only [SortedBy.mem_ofList] using same
    rw [ofList, premises]
  exact parse_eq_ok_iff.mpr ⟨_, _, order, clause.conclusion, sole, readPremise, readConclusion, built⟩

/-- Just the clauses that can be written are read off some line, and each is read off all lines that are
written for it. -/
theorem parse_inverts_write (clause : Clause) :
    ((∃ line, parse line = .ok clause) ↔ clause.Expressible) ∧
      (clause.Expressible → ∀ order, (∀ atom, atom ∈ order ↔ atom ∈ clause.premise) →
        parse (write order clause.conclusion) = .ok clause) := by
  constructor
  · constructor
    · intro ⟨line, read⟩
      exact expressible_of_parse read
    · intro expressible
      exact ⟨write clause.premise.toList clause.conclusion, parse_write expressible fun _ => Iff.rfl⟩
  · intro expressible order same
    exact parse_write expressible same

/-- Dashes, points and parentheses at the ends of symbols do not mislead reading. -/
theorem parse_inverts_write_marks :
    let clause := ofList [.verum, .named "a-", .named ">b)"] (.named "(p & q) -")
    let order : List Atom := [.named ">b)", .named "a-", .verum]
    clause.Expressible ∧ (∀ atom, atom ∈ order ↔ atom ∈ clause.premise) ∧
      write order clause.conclusion = ">b) & a- & 1 -> (p & q) -" ∧
      parse (write order clause.conclusion) = .ok clause := by
  intro clause order
  have same : ∀ atom, atom ∈ order ↔ atom ∈ clause.premise := by
    intro atom
    simp only [order, clause, ofList, SortedBy.mem_ofList, List.mem_cons, List.not_mem_nil]
    grind
  have expressible : clause.Expressible := by
    constructor
    · intro symbol member
      have listed := (same _).mpr member
      simp only [order, List.mem_cons, Atom.named.injEq, List.not_mem_nil, or_false, reduceCtorEq] at listed
      rcases listed with rfl | rfl
      · exact Atom.isWritablePremise_of_isSymbol
          ⟨List.all_eq_true.mp (by decide), '>', ['b', ')'], rfl, by decide, by decide⟩
          (by decide) (by decide) (by decide)
      · exact Atom.isWritablePremise_of_isSymbol
          ⟨List.all_eq_true.mp (by decide), 'a', ['-'], rfl, by decide, by decide⟩
          (by decide) (by decide) (by decide)
    · rintro symbol ⟨⟩
      exact ⟨⟨by decide, by decide, by decide, by decide⟩, by decide⟩
  exact ⟨expressible, same, by decide, (parse_inverts_write clause).2 expressible order same⟩

end Clause
end HornLogic
