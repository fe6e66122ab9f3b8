import IndexQuery.Call
import IndexQuery.Document.Field
import IndexQuery.Document.Settings
import IndexQuery.Proofs.Addressing
import IndexQuery.Proofs.Reading.Statement
import IndexQuery.Proofs.Selection.Complement
import IndexQuery.Proofs.Run
import IndexQuery.Proofs.Scan.Statement
import IndexQuery.Proofs.Scan.Clauses
import IndexQuery.Proofs.Accumulation
import IndexQuery.Proofs.Interleaving
import IndexQuery.Proofs.Shape
import IndexQuery.Proofs.Negation
import IndexQuery.Proofs.Reading.Lexer
import IndexQuery.Proofs.Reading.Row
import IndexQuery.Proofs.Reading.Operands
import IndexQuery.Proofs.Scan.Leaves
import IndexQuery.Proofs.Reading.Groups
import IndexQuery.Proofs.Reading.Match
import IndexQuery.Proofs.Renaming.Text
import IndexQuery.Proofs.Renaming.Calls
import IndexQuery.Proofs.Renaming.Runs
import IndexQuery.Proofs.Paging
import IndexQuery.Proofs.Options
import IndexQuery.Proofs.Reading.Flat
import IndexQuery.Proofs.Legible.Options
import IndexQuery.Proofs.Acceptance
import IndexQuery.Proofs.Grammar
import IndexQuery.Proofs.Searching
import IndexQuery.Proofs.Building
import IndexQuery.Proofs.Reading.Parentheses
import IndexQuery.Proofs.Timestamps
import IndexQuery.Proofs.Documents.Integers
import IndexQuery.Proofs.Scan.Alignment
import IndexQuery.Proofs.Scan.Composition
import IndexQuery.Proofs.Legible.Escaping
