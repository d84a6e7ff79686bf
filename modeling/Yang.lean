import Yang.Parse.Run
import Yang.Source.LineIndex
import Yang.Statement.Traversal
import Yang.Proofs.Grammar.Tables
import Yang.Proofs.Grammar.Shape
import Yang.Proofs.Grammar.Conformance
import Yang.Proofs.Statement.Preorder
import Yang.Proofs.Statement.Rendering
import Yang.Proofs.Statement.Bare
import Yang.Proofs.Statement.Path
import Yang.Proofs.Statement.Tour
import Yang.Proofs.Statement.Descendants
import Yang.Proofs.Statement.Brackets
import Yang.Proofs.Diagnostic.Violation
import Yang.Proofs.Parse.Move
import Yang.Proofs.Parse.Reads
import Yang.Proofs.Parse.Progress
import Yang.Proofs.Parse.Admission
import Yang.Proofs.Parse.Invariant
import Yang.Proofs.Parse.Counting
import Yang.Proofs.Parse.Acceptance
import Yang.Proofs.Parse.Written
import Yang.Proofs.Parse.Completeness
import Yang.Proofs.Parse.Halt
import Yang.Proofs.Parse.Lookahead
import Yang.Proofs.Parse.Consumption
import Yang.Proofs.Parse.Continuation
import Yang.Proofs.Parse.Completed
import Yang.Proofs.Parse.FailFast
import Yang.Proofs.Parse.HeaderOrder
import Yang.Proofs.Parse.Faults
import Yang.Proofs.Parse.Location
import Yang.Proofs.Parse.Places
import Yang.Proofs.Lexeme.Cuts
import Yang.Proofs.Lexeme.Leads
import Yang.Proofs.Token.OfText
import Yang.Proofs.Token.WriteBack
import Yang.Proofs.Token.Trivia
import Yang.Proofs.Parse.Passage
import Yang.Proofs.Token.Tiling
import Yang.Proofs.Token.Concatenation
import Yang.Proofs.Parse.Erasure
import Yang.Proofs.Parse.Rearrangement
import Yang.Proofs.Source.Position
import Yang.Proofs.Source.Lines
import Yang.Proofs.Source.LineIndex
import Yang.Proofs.Token.Placement
import Yang.Proofs.Parse.Spans
import Yang.Proofs.Parse.TypeBody
import Yang.Proofs.Parse.RegionOrder
import Yang.Proofs.Parse.Expectation
import Yang.Proofs.Lexeme.Word
import Yang.Proofs.Token.Spelling
import Yang.Proofs.Parse.Argument
import Yang.Proofs.Token.Keywords
import Yang.Proofs.Parse.Keywords
import Yang.Proofs.Token.Requests
import Yang.Proofs.Parse.Supply
