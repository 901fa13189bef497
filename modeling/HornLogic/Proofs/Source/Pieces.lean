import HornLogic.Proofs.Source.Lines
import HornLogic.Text.Pieces

/-!
# Reading a text by its characters

The source of a text gives bytes, and each of its lines is decoded again. A line feed has one byte that is in no
other character, so the lines of the bytes are the encoded pieces of the text and all of them are readable
(`lines_ofText`). Hence reading a text can only fail at a piece that is no clause
(`Formula.ofText_by_pieces`).
-/
namespace HornLogic

set_option autoImplicit false

open Text

namespace Text

theorem splitOn_eq_cut {Item : Type} [DecidableEq Item] (mark : Item) (values : List Item) :
    values.splitOn mark = (cut (· == mark) values).ended ++ [(cut (· == mark) values).rest] := by
  rw [List.splitOn]
  induction values with
  | nil => rfl
  | cons first rest ih =>
      rw [List.splitOnP_cons_eq_if_modifyHead, ih, cut_cons, Cut.extend]
      split
      · rfl
      · cases ended : (cut (· == mark) rest).ended with
        | nil => rfl
        | cons line later => rfl

/-- The parts between the marks, but for an empty one at the end, are the lines of a text. -/
theorem dropEmptyLast_splitOn {Item : Type} [DecidableEq Item] (mark : Item) (values : List Item) :
    dropEmptyLast (values.splitOn mark) = (cut (· == mark) values).lines := by
  rw [splitOn_eq_cut, dropEmptyLast, List.getLast?_concat, Cut.lines]
  cases (cut (· == mark) values).rest with
  | nil => simp
  | cons first others => rfl

end Text

namespace Source

theorem lineText_encode (line : List Char) :
    lineText (Utf8.encode (String.ofList line)) = some (String.ofList (dropTrailing (· == '\r') line)) := by
  rw [lineText, Utf8.decode?_encode, Option.map_some, String.toList_ofList]

theorem encode_line (line rest : List Char) :
    Utf8.encode (String.ofList (line ++ '\n' :: rest)) =
      Utf8.encode (String.ofList line) ++ lineFeed :: Utf8.encode (String.ofList rest) := by
  simp only [Utf8.encode_ofList, List.flatMap_append, List.flatMap_cons, Utf8.isSingle_newline.encoded,
    List.singleton_append]

theorem encode_plain {line : List Char} (plain : '\n' ∉ line) : lineFeed ∉ Utf8.encode (String.ofList line) := by
  rw [Utf8.lineFeed_mem_encode_iff, String.toList_ofList]
  exact plain

theorem lines_ofText_unended {line : List Char} (plain : '\n' ∉ line) :
    (ofText (String.ofList line)).lines =
      (if line.isEmpty then [] else [line]).map fun line => lineText (Utf8.encode (String.ofList line)) := by
  cases line with
  | nil => rfl
  | cons first others =>
      have present : Utf8.encode (String.ofList (first :: others)) ≠ [] := by
        rw [Utf8.encode_ofList, List.flatMap_cons]
        exact List.append_ne_nil_of_left_ne_nil String.utf8EncodeChar_ne_nil _
      rw [ofText, lines_unended present (encode_plain plain)]
      rfl

/-- Ended lines and a rest are encoded line by line. -/
theorem lines_ofText_join {ended : List (List Char)} {rest : List Char} (plain : ∀ line ∈ ended, '\n' ∉ line)
    (plainRest : '\n' ∉ rest) :
    (ofText (String.ofList (Cut.join '\n' ⟨ended, rest⟩))).lines =
      (Cut.mk ended rest).lines.map fun line => lineText (Utf8.encode (String.ofList line)) := by
  induction ended with
  | nil => exact lines_ofText_unended plainRest
  | cons line later ih =>
      have inner := List.forall_mem_cons.mp plain
      have parts : Cut.join '\n' ⟨line :: later, rest⟩ = line ++ '\n' :: Cut.join '\n' ⟨later, rest⟩ := by
        simp [Cut.join]
      rw [parts, ofText, encode_line, lines_line (encode_plain inner.1), ← ofText, ih inner.2]
      rfl

/-- The source of a text has its pieces as lines. -/
theorem lines_ofText (text : String) : (ofText text).lines = (pieces text).map some := by
  obtain ⟨plain, plainRest⟩ := plain_cut '\n' text.toList
  have lines := lines_ofText_join plain plainRest
  rw [Cut.join_cut, String.ofList_toList] at lines
  rw [lines, pieces, dropEmptyLast_splitOn, List.map_map]
  exact List.map_congr_left fun line _ => lineText_encode line

/-- A piece between line feeds may be empty, but not behind the last of them. -/
example : pieces "-> π\r\r\n\nq\n" = ["-> π", "", "q"] := by decide +kernel

end Source

namespace Formula

theorem mapM_clauseOfLine {pieces : List String} {clauses : List Clause}
    (read : pieces.mapM Clause.parse = .ok clauses) : (pieces.map some).mapM clauseOfLine = .ok clauses := by
  induction pieces generalizing clauses with
  | nil =>
      cases read
      rfl
  | cons piece later ih =>
      obtain ⟨clause, others, readPiece, readLater, rfl⟩ := mapM_cons_eq_ok_iff.mp read
      have given : clauseOfLine (some piece) = .ok clause := by rw [clauseOfLine, readPiece]; rfl
      exact mapM_cons_eq_ok_iff.mpr ⟨clause, others, given, ih readLater, rfl⟩

variable {text : String} {clauses : List Clause}

theorem ofText_of_clauses (given : (pieces text).mapM Clause.parse = .ok clauses) :
    ofText text = .ok (ofList clauses) := by
  obtain ⟨counted, _, reading⟩ := empty.readLines_append .zero (mapM_clauseOfLine given) []
  rw [List.append_nil, readLines] at reading
  rw [ofText, read, readInto, Source.lines_ofText, reading]
  rfl

theorem ofText_of_fault {before after : List String} {piece : String} {fault : ParseError}
    (parts : pieces text = before ++ piece :: after)
    (earlier : ∀ other ∈ before, ∃ clause, Clause.parse other = .ok clause)
    (fails : Clause.parse piece = .error fault) : ofText text = .error (.line (before.length + 1) fault) := by
  obtain ⟨clauses, given⟩ := mapM_succeeds earlier
  obtain ⟨counted, continued, reading⟩ :=
    empty.readLines_append .zero (mapM_clauseOfLine given) (some piece :: after.map some)
  have refused : clauseOfLine (some piece) = .error (.malformed fault) := by rw [clauseOfLine, fails]; rfl
  have lines := continued.lines
  rw [List.length_map, Tally.zero, Nat.zero_add] at lines
  rw [readLines_fault _ counted refused, LineFault.report, lines] at reading
  rw [ofText, read, readInto, Source.lines_ofText, parts, List.map_append, List.map_cons, reading]
  rfl

theorem ofText_cases (text : String) :
    (∃ clauses, (pieces text).mapM Clause.parse = .ok clauses ∧ ofText text = .ok (ofList clauses)) ∨
      ∃ before piece after fault, pieces text = before ++ piece :: after ∧
        (∀ other ∈ before, ∃ clause, Clause.parse other = .ok clause) ∧ Clause.parse piece = .error fault ∧
        ofText text = .error (.line (before.length + 1) fault) := by
  rcases mapM_cases Clause.parse (pieces text) with
    ⟨clauses, given⟩ | ⟨before, piece, after, clauses, fault, parts, given, fails⟩
  · exact .inl ⟨clauses, given, ofText_of_clauses given⟩
  · have earlier := exists_of_mapM_eq_ok given
    exact .inr ⟨before, piece, after, fault, parts, earlier, fails, ofText_of_fault parts earlier fails⟩

/-- A text is read to the formula of the clauses on its pieces, in their order, or the first piece that is no
clause is reported by its number. There is no other error. -/
theorem ofText_by_pieces (text : String) :
    (∀ formula, ofText text = .ok formula ↔
      ∃ clauses, (pieces text).mapM Clause.parse = .ok clauses ∧ formula = ofList clauses) ∧
    (∀ error, ofText text = .error error ↔
      ∃ before piece after fault, pieces text = before ++ piece :: after ∧
        (∀ earlier ∈ before, ∃ clause, Clause.parse earlier = .ok clause) ∧
        Clause.parse piece = .error fault ∧ error = .line (before.length + 1) fault) ∧
    (∀ linesRead, ofText text ≠ .error (.source linesRead)) ∧ ∀ fault, ofText text ≠ .error (.clause fault) := by
  have onlyLines : ∀ error, ofText text = .error error →
      ∃ before piece after fault, pieces text = before ++ piece :: after ∧
        (∀ earlier ∈ before, ∃ clause, Clause.parse earlier = .ok clause) ∧
        Clause.parse piece = .error fault ∧ error = .line (before.length + 1) fault := by
    intro error same
    rcases ofText_cases text with
      ⟨clauses, given, reads⟩ | ⟨before, piece, after, fault, parts, earlier, fails, reads⟩
    · cases reads.symm.trans same
    · exact ⟨before, piece, after, fault, parts, earlier, fails, Except.error.inj (same.symm.trans reads)⟩
  refine ⟨fun formula => ⟨fun same => ?_, ?_⟩, fun error => ⟨onlyLines error, ?_⟩, fun linesRead same => ?_,
    fun fault same => ?_⟩
  · rcases ofText_cases text with ⟨clauses, given, reads⟩ | ⟨_, _, _, _, _, _, _, reads⟩
    · exact ⟨clauses, given, Except.ok.inj (same.symm.trans reads)⟩
    · cases reads.symm.trans same
  · rintro ⟨clauses, given, rfl⟩
    exact ofText_of_clauses given
  · rintro ⟨before, piece, after, fault, parts, earlier, fails, rfl⟩
    exact ofText_of_fault parts earlier fails
  · obtain ⟨_, _, _, _, _, _, _, line⟩ := onlyLines _ same
    cases line
  · obtain ⟨_, _, _, _, _, _, _, line⟩ := onlyLines _ same
    cases line

end Formula
end HornLogic
