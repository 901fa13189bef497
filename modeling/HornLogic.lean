import HornLogic.Assignment
import HornLogic.Atom
import HornLogic.Clause
import HornLogic.Clause.Parse
import HornLogic.CommandLine.FileError
import HornLogic.CommandLine.Hierarchy
import HornLogic.CommandLine.Machine
import HornLogic.CommandLine.Options
import HornLogic.CommandLine.Path
import HornLogic.CommandLine.Run
import HornLogic.CommandLine.System
import HornLogic.CommandLine.World
import HornLogic.Conjunction
import HornLogic.Conjunction.Scope
import HornLogic.Formula
import HornLogic.Formula.Chaining
import HornLogic.Formula.Model
import HornLogic.Formula.Reader
import HornLogic.Formula.Solve
import HornLogic.InputError
import HornLogic.Main
import HornLogic.ParseError
import HornLogic.Proofs.Formula.Forcing
import HornLogic.Proofs.Propagation.Numbering
import HornLogic.Propagation.Index
import HornLogic.Propagation.Marking
import HornLogic.Solution
import HornLogic.SortedBy
import HornLogic.Source
import HornLogic.Text.Blank
import HornLogic.Text.Lines
import HornLogic.Text.Trim
import HornLogic.Text.Utf8
import HornLogic.Proofs.Propagation.Bookkeeping
import HornLogic.Proofs.Formula.LeastModel
import HornLogic.Proofs.Formula.Chaining
import HornLogic.Conjunction.Grammar
import HornLogic.Proofs.Conjunction.Balance
import HornLogic.Proofs.Conjunction.Steps
import HornLogic.Proofs.Conjunction.Derivation
import HornLogic.Clause.Grammar
import HornLogic.Proofs.Clause.Arrow
import HornLogic.Proofs.Clause.Parsing
import HornLogic.Formula.Firing
import HornLogic.Proofs.Formula.Firing
import HornLogic.Proofs.Formula.Confluence
import HornLogic.Text.Rows
import HornLogic.Proofs.Text.Rows
import HornLogic.Proofs.Text.Encoding
import HornLogic.Formula.Reading
import HornLogic.Proofs.Formula.Reading
import HornLogic.Proofs.Clause.Message
import HornLogic.Proofs.Clause.Padding
import HornLogic.CommandLine.Outcome
import HornLogic.Proofs.CommandLine.Reading
import HornLogic.Proofs.CommandLine.Outcome
import HornLogic.Proofs.CommandLine.Following
import HornLogic.Proofs.CommandLine.Modes
import HornLogic.Proofs.CommandLine.World
import HornLogic.Proofs.Formula.Comparison
import HornLogic.Clause.Written
import HornLogic.Proofs.Clause.Written
import HornLogic.Proofs.Conjunction.Completion
import HornLogic.Proofs.Conjunction.Continuation
import HornLogic.Clause.Sides
import HornLogic.Proofs.Clause.FaultPlace
import HornLogic.Proofs.Formula.Addition
import HornLogic.Proofs.Formula.Concatenation
import HornLogic.Formula.History
import HornLogic.Proofs.Formula.History
import HornLogic.Propagation.Checked
import HornLogic.Proofs.Propagation.Exactness
import HornLogic.Proofs.Propagation.Checked
import HornLogic.Conjunction.Evidence
import HornLogic.Proofs.Clause.Priority
import HornLogic.Proofs.Conjunction.Nesting
import HornLogic.Proofs.Clause.Evidence
import HornLogic.Proofs.Clause.Regrouping
import HornLogic.Conjunction.Flatten
import HornLogic.Proofs.Conjunction.Regrouping
import HornLogic.Proofs.Clause.Sides
import HornLogic.Clause.Spacing
import HornLogic.Proofs.Clause.Spacing
import HornLogic.Proofs.Source.Lines
import HornLogic.Proofs.Source.Terminators
import HornLogic.Proofs.Source.Pieces
import HornLogic.Proofs.Conjunction.Spacing
import HornLogic.Source.Terminators
import HornLogic.Text.Pieces
import HornLogic.Text.Window
import HornLogic.Conjunction.Cursor
import HornLogic.Clause.Cursor
import HornLogic.Proofs.Text.Window
import HornLogic.Proofs.Conjunction.Front
import HornLogic.Proofs.Conjunction.Cursor
import HornLogic.Proofs.Clause.Cursor
import HornLogic.Formula.Renaming
import HornLogic.Proofs.Formula.Renaming
import HornLogic.Conjunction.Closing
import HornLogic.Proofs.Conjunction.Closing
import HornLogic.Propagation.Draft
import HornLogic.Proofs.Propagation.Draft
import HornLogic.Order
import HornLogic.Proofs.Text.CodePoints
import HornLogic.Proofs.Order
