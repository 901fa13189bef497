import HornLogic.Formula.Reading
import HornLogic.Proofs.Outcome
import HornLogic.Proofs.Text.Encoding
import HornLogic.Proofs.Text.Rows

/-!
# Reading follows the rows

The reader cuts line feeds off before it looks at a line, and gives up the unended rest of a source that fails
without looking at it. Row by row this makes no difference (`readInto_eq_readLines_rows`), and from there on the
reader is followed line by line: as long as lines give clauses the counts keep up with the formula
(`readLines_append`), and the first line that gives none ends the reading (`readLines_fault`).
-/
namespace HornLogic

set_option autoImplicit false

open Text

namespace Text

theorem dropTrailing_congr {Item : Type} {test other : Item → Bool} {values : List Item}
    (same : ∀ item ∈ values, test item = other item) :
    dropTrailing test values = dropTrailing other values := by
  have run : ∀ reversed : List Item, (∀ item ∈ reversed, test item = other item) →
      reversed.dropWhile test = reversed.dropWhile other := by
    intro reversed agree
    induction reversed with
    | nil => rfl
    | cons first rest ih =>
        have inner := List.forall_mem_cons.mp agree
        rw [List.dropWhile_cons, List.dropWhile_cons, inner.1, ih inner.2]
  rw [dropTrailing, dropTrailing, run values.reverse]
  simpa using same

end Text

namespace Source

theorem dropTrailing_endsLine {line : List UInt8} {text : String} (plain : lineFeed ∉ line)
    (decoded : Utf8.decode? line = some text) :
    dropTrailing endsLine text.toList = dropTrailing (· == '\r') text.toList := by
  apply dropTrailing_congr
  intro character member
  have notNewline : character ≠ '\n' := by
    rintro rfl
    rw [Utf8.decode?_eq_some_iff.mp decoded, Utf8.lineFeed_mem_encode_iff] at plain
    exact plain member
  rw [endsLine, beq_false_of_ne notNewline, Bool.false_or]

/-- A line feed at the end of a line is dropped with the carriage returns before it. -/
theorem rowText_ended (source : Source) {line : List UInt8} (plain : lineFeed ∉ line) :
    source.rowText (line ++ [lineFeed]) = lineText line := by
  have ended : (line ++ [lineFeed]).contains lineFeed = true := by simp
  rw [rowText, ended, Bool.not_true, Bool.and_false, if_neg Bool.false_ne_true, Utf8.decode?_ended,
    lineText]
  cases decoded : Utf8.decode? line with
  | none => rfl
  | some text =>
      have newline : endsLine '\n' = true := by decide
      have textEnded : (text ++ "\n").toList = text.toList ++ ['\n'] := String.toList_append
      simp only [Option.map_some]
      rw [textEnded, dropTrailing_concat, if_pos newline, dropTrailing_endsLine plain decoded]

theorem rowText_unended {source : Source} {row : List UInt8} (plain : lineFeed ∉ row) :
    source.rowText row = if source.fails then none else lineText row := by
  have openRow : row.contains lineFeed = false := by simpa using plain
  rw [rowText, openRow, Bool.not_false, Bool.and_true]
  split
  · rfl
  · rw [lineText]
    cases decoded : Utf8.decode? row with
    | none => rfl
    | some text => simp only [Option.map_some, dropTrailing_endsLine plain decoded]

theorem map_rowText_rows (source : Source) :
    let pieces := cut (· == lineFeed) source.bytes
    source.rows.map source.rowText =
      pieces.ended.map lineText ++
        if pieces.rest.isEmpty then [] else [if source.fails then none else lineText pieces.rest] := by
  intro pieces
  obtain ⟨plainLines, plainRest⟩ := plain_cut lineFeed source.bytes
  have ended : pieces.ended.map (source.rowText ∘ (· ++ [lineFeed])) = pieces.ended.map lineText :=
    List.map_congr_left fun line member => source.rowText_ended (plainLines line member)
  rw [rows, rows_eq_cut, List.map_append, List.map_map, ended]
  apply congrArg (pieces.ended.map lineText ++ ·)
  rw [← rowText_unended plainRest]
  split
  · rfl
  · rfl

theorem lines_of_ends {source : Source} (ends : source.fails = false) :
    source.lines = source.rows.map source.rowText := by
  rw [map_rowText_rows, lines, ends, if_neg Bool.false_ne_true, Cut.lines, List.map_append,
    if_neg Bool.false_ne_true]
  apply congrArg
  split
  · rfl
  · rfl

/-- A source that fails gives a line without text, where its rows may have one more. -/
theorem lines_of_fails {source : Source} (fails : source.fails = true) :
    ∃ front extra, source.lines = front ++ [none] ∧
      source.rows.map source.rowText ++ [none] = front ++ none :: extra := by
  let pieces := cut (· == lineFeed) source.bytes
  refine ⟨pieces.ended.map lineText, if pieces.rest.isEmpty then [] else [none], ?_, ?_⟩
  · rw [lines, fails, if_pos rfl]
  · rw [map_rowText_rows, fails, if_pos rfl, List.append_assoc]
    apply congrArg
    split
    · rfl
    · rfl

end Source

/-- What the counts come to after some lines that all give clauses. -/
structure Tally.Continues (tally counted : Tally) (formula extended : Formula) (number : Nat) :
    Prop where
  lines : counted.lines = tally.lines + number
  growth : extended.size + tally.added = formula.size + counted.added
  balance : counted.added + counted.duplicates = tally.added + tally.duplicates + number

namespace Formula

theorem size_insert (formula : Formula) (clause : Clause) :
    (formula.insert clause).size = formula.size + if formula.contains clause then 0 else 1 := by
  rw [size, clauses_insert]
  split
  · rfl
  · exact Array.size_push ..

theorem extend_cons (formula : Formula) (clause : Clause) (others : List Clause) :
    formula.extend (clause :: others) = (formula.insert clause).extend others := rfl

theorem readLines_clause (formula : Formula) (tally : Tally) {line : Option String} {clause : Clause}
    (given : clauseOfLine line = .ok clause) (rest : List (Option String)) :
    formula.readLines tally (line :: rest) =
      (formula.insert clause).readLines (tally.count (!formula.contains clause)) rest := by
  cases line with
  | none => cases given
  | some text =>
      rw [readLines, ← add_snd, insert]
      rw [clauseOfLine] at given
      cases parsed : Clause.parse text with
      | error error =>
          rw [parsed] at given
          cases given
      | ok other =>
          rw [parsed] at given
          cases given
          rfl

theorem readLines_fault (formula : Formula) (tally : Tally) {line : Option String} {fault : LineFault}
    (given : clauseOfLine line = .error fault) (rest : List (Option String)) :
    formula.readLines tally (line :: rest) = (formula, .error (fault.report tally.lines)) := by
  cases line with
  | none =>
      cases given
      rfl
  | some text =>
      rw [readLines]
      rw [clauseOfLine] at given
      cases parsed : Clause.parse text with
      | error error =>
          rw [parsed] at given
          cases given
          rfl
      | ok clause =>
          rw [parsed] at given
          cases given

theorem continues_count (formula : Formula) (tally : Tally) (clause : Clause) :
    tally.Continues (tally.count (!formula.contains clause)) formula (formula.insert clause) 1 := by
  have size := formula.size_insert clause
  cases known : formula.contains clause with
  | false =>
      simp only [known, Bool.false_eq_true, if_false] at size
      constructor
      · rfl
      · simp only [Tally.count, Bool.not_false, if_true]
        omega
      · simp only [Tally.count, Bool.not_false, if_true]
        omega
  | true =>
      simp only [known, if_true] at size
      constructor
      · rfl
      · simp only [Tally.count, Bool.not_true, Bool.false_eq_true, if_false]
        omega
      · simp only [Tally.count, Bool.not_true, Bool.false_eq_true, if_false]
        omega

/-- Lines that give clauses are read one by one, and the reading goes on behind them. -/
theorem readLines_append (formula : Formula) (tally : Tally) {front : List (Option String)}
    {clauses : List Clause} (given : front.mapM clauseOfLine = .ok clauses)
    (rest : List (Option String)) :
    ∃ counted, tally.Continues counted formula (formula.extend clauses) front.length ∧
      formula.readLines tally (front ++ rest) = (formula.extend clauses).readLines counted rest := by
  induction front generalizing formula tally clauses with
  | nil =>
      cases given
      exact ⟨tally, ⟨rfl, rfl, rfl⟩, rfl⟩
  | cons line others ih =>
      obtain ⟨clause, later, givenLine, givenOthers, rfl⟩ := mapM_cons_eq_ok_iff.mp given
      have first := formula.continues_count tally clause
      obtain ⟨counted, continued, read⟩ :=
        ih (formula.insert clause) (tally.count (!formula.contains clause)) givenOthers
      refine ⟨counted, ?_, ?_⟩
      · rw [extend_cons, List.length_cons]
        constructor
        · rw [continued.lines, first.lines]
          omega
        · have growth := continued.growth
          have firstGrowth := first.growth
          omega
        · rw [continued.balance, first.balance]
          omega
      · rw [List.cons_append, readLines_clause formula tally givenLine, read, extend_cons]

theorem readLines_stops (formula : Formula) (tally : Tally) (front : List (Option String))
    (later : List (Option String)) :
    formula.readLines tally (front ++ none :: later) = formula.readLines tally (front ++ [none]) := by
  induction front generalizing formula tally with
  | nil => rfl
  | cons line others ih =>
      rw [List.cons_append, List.cons_append]
      cases given : clauseOfLine line with
      | error fault => rw [readLines_fault formula tally given, readLines_fault formula tally given]
      | ok clause =>
          rw [readLines_clause formula tally given, readLines_clause formula tally given, ih]

theorem readInto_eq_readLines_rows (formula : Formula) (source : Source) :
    formula.readInto source = formula.readLines .zero
      (source.rows.map source.rowText ++ if source.fails then [none] else []) := by
  rw [readInto]
  by_cases fails : source.fails = true
  · obtain ⟨front, extra, lines, rows⟩ := Source.lines_of_fails fails
    rw [if_pos fails, rows, lines, readLines_stops formula .zero front extra]
  · rw [Bool.not_eq_true] at fails
    rw [Source.lines_of_ends fails, fails, if_neg Bool.false_ne_true, List.append_nil]

theorem mapM_rowText {source : Source} (rows : List (List UInt8)) :
    (rows.map source.rowText).mapM clauseOfLine = rows.mapM source.clauseOn :=
  List.mapM_map

/-- The counts of a reading that comes to the end are fixed by the formula and the rows. -/
theorem readLines_rows (formula : Formula) {source : Source} {rows : List (List UInt8)}
    {clauses : List Clause} (read : rows.mapM source.clauseOn = .ok clauses)
    (rest : List (Option String)) :
    ∃ counted : Tally, counted.lines = rows.length ∧
      (formula.extend clauses).size = formula.size + counted.added ∧
      counted.added + counted.duplicates = rows.length ∧
      formula.readLines .zero (rows.map source.rowText ++ rest) =
        (formula.extend clauses).readLines counted rest := by
  rw [← mapM_rowText] at read
  obtain ⟨counted, continued, reading⟩ := formula.readLines_append .zero read rest
  have lines := continued.lines
  have growth := continued.growth
  have balance := continued.balance
  rw [List.length_map] at lines balance
  simp only [Tally.zero, Nat.zero_add, Nat.add_zero] at lines growth balance
  exact ⟨counted, lines, growth, balance, reading⟩

theorem readsTo_total (formula : Formula) (source : Source) :
    ∃ result, formula.ReadsTo source result := by
  rcases mapM_cases source.clauseOn source.rows with
    ⟨clauses, read⟩ | ⟨before, row, after, clauses, fault, rows, read, stops⟩
  · cases fails : source.fails with
    | true => exact ⟨_, .failed read fails⟩
    | false =>
        obtain ⟨counted, lines, growth, balance, _⟩ := formula.readLines_rows read []
        exact ⟨_, .ended read fails lines growth balance⟩
  · exact ⟨_, .stopped rows read stops⟩

theorem readInto_of_readsTo {formula : Formula} {source : Source}
    {result : Formula × Except InputError Tally} (reads : formula.ReadsTo source result) :
    formula.readInto source = result := by
  rw [readInto_eq_readLines_rows]
  cases reads with
  | @stopped before after row clauses fault rows read stops =>
      obtain ⟨counted, lines, _, _, reading⟩ := formula.readLines_rows read
        ((row :: after).map source.rowText ++ if source.fails then [none] else [])
      rw [rows, List.map_append, List.append_assoc, reading, List.map_cons, List.cons_append,
        readLines_fault _ counted stops, lines]
  | @failed clauses read fails =>
      obtain ⟨counted, lines, _, _, reading⟩ := formula.readLines_rows read [none]
      rw [if_pos fails, reading, readLines, lines]
  | @ended clauses tally read ends lines growth balance =>
      obtain ⟨counted, countedLines, countedGrowth, countedBalance, reading⟩ :=
        formula.readLines_rows read []
      -- Lines, growth and balance leave no choice of the three counts.
      have same : counted = tally := by
        cases counted
        cases tally
        simp only [Tally.mk.injEq]
        dsimp only at *
        omega
      rw [ends, if_neg Bool.false_ne_true, reading, readLines, same]

/-- How a source is read, and that it is read in no other way. -/
theorem readInto_eq_iff_readsTo (formula : Formula) (source : Source)
    (result : Formula × Except InputError Tally) :
    formula.readInto source = result ↔ formula.ReadsTo source result := by
  constructor
  · intro read
    obtain ⟨other, reads⟩ := formula.readsTo_total source
    rw [← read, readInto_of_readsTo reads]
    exact reads
  · exact readInto_of_readsTo

end Formula
end HornLogic
