import Motif.Text.Blank
import Motif.Text.Digit
import Motif.Text.Printable
import Motif.Text.Shown
import Motif.Text.Quoted
import Motif.Text.Integer
import Motif.Text.Lines
import Motif.Text.Slice
import Motif.Double.Shortest
import Motif.Node.Reduce
import Motif.Node.Penalty
import Motif.Pattern
import Motif.Node.Parser
import Motif.Registry.Expansion
import Motif.Registry.Maintenance
import Motif.Registry.Alphabet
import Motif.Registry.Table
import Motif.Chart.Matching
import Motif.Setting
import Motif.Survey.Report
import Motif.Json.Parser
import Motif.Json.Printer
import Motif.Corpus
import Motif.Proposal
import Motif.Training.Trainer
import Motif.Session.Patterns
import Motif.Session.Charts
import Motif.Session.Learning
import Motif.Main
import Motif.Proofs.Action
import Motif.Proofs.Lexeme.Cutting
import Motif.Proofs.Lexeme.Partition
import Motif.Proofs.Lexeme.Ranges
import Motif.Proofs.Lexeme.Spacing
import Motif.Proofs.Lexeme.Reading
import Motif.Proofs.Lexeme.Symbols
import Motif.Proofs.Matching.Alike
import Motif.Proofs.Matching.Bounds
import Motif.Proofs.Matching.Calls
import Motif.Proofs.Matching.Charts
import Motif.Proofs.Matching.Composing
import Motif.Proofs.Matching.Confining
import Motif.Proofs.Matching.Depth
import Motif.Proofs.Matching.Ends
import Motif.Proofs.Matching.Evaluation
import Motif.Proofs.Matching.Frontiers
import Motif.Proofs.Matching.Growth
import Motif.Proofs.Matching.Indices
import Motif.Proofs.Matching.Keeping
import Motif.Proofs.Matching.Levels
import Motif.Proofs.Matching.LookBehind
import Motif.Proofs.Matching.Memory
import Motif.Proofs.Matching.Phrases
import Motif.Proofs.Matching.Quantifiers
import Motif.Proofs.Matching.Remembering
import Motif.Proofs.Matching.Replaying
import Motif.Proofs.Matching.Retracing
import Motif.Proofs.Matching.Runs
import Motif.Proofs.Matching.Settled
import Motif.Proofs.Matching.Sharing
import Motif.Proofs.Matching.Spelled
import Motif.Proofs.Matching.Splicing
import Motif.Proofs.Matching.Submatches
import Motif.Proofs.Matching.Sufficing
import Motif.Proofs.Matching.Tiling
import Motif.Proofs.Matching.Transparency
import Motif.Proofs.Matching.Trials
import Motif.Proofs.Matching.Words
import Motif.Proofs.Node.Acceptance
import Motif.Proofs.Node.Grammar
import Motif.Proofs.Node.Paring
import Motif.Proofs.Node.Parsing
import Motif.Proofs.Node.Penalty
import Motif.Proofs.Node.Phrase
import Motif.Proofs.Node.Reduction
import Motif.Proofs.Node.Rendering
import Motif.Proofs.Node.Spelling
import Motif.Proofs.Node.Structure
import Motif.Proofs.Node.Substitution
import Motif.Proofs.Node.Uniqueness
import Motif.Proofs.Registry.Addressing
import Motif.Proofs.Registry.Anew
import Motif.Proofs.Registry.Basics
import Motif.Proofs.Registry.Blaming
import Motif.Proofs.Registry.Christening
import Motif.Proofs.Registry.Compiling
import Motif.Proofs.Registry.Consistency
import Motif.Proofs.Registry.Curating
import Motif.Proofs.Registry.Describing
import Motif.Proofs.Registry.Duplicates
import Motif.Proofs.Registry.Escaping
import Motif.Proofs.Registry.Expanding
import Motif.Proofs.Registry.Experiments
import Motif.Proofs.Registry.Filing
import Motif.Proofs.Registry.Freshness
import Motif.Proofs.Registry.Histories
import Motif.Proofs.Registry.Identity
import Motif.Proofs.Registry.Inlining
import Motif.Proofs.Registry.Lasting
import Motif.Proofs.Registry.Legality
import Motif.Proofs.Registry.LiteralIndex
import Motif.Proofs.Registry.Mirroring
import Motif.Proofs.Registry.Operations
import Motif.Proofs.Registry.Rebuilding
import Motif.Proofs.Registry.Recalling
import Motif.Proofs.Registry.Recompiling
import Motif.Proofs.Registry.References
import Motif.Proofs.Registry.Refusals
import Motif.Proofs.Registry.Refusing
import Motif.Proofs.Registry.Reloading
import Motif.Proofs.Registry.Rolls
import Motif.Proofs.Registry.RoundTrip
import Motif.Proofs.Registry.Rows
import Motif.Proofs.Registry.Tables
import Motif.Proofs.Registry.Taming
import Motif.Proofs.Registry.Tidiness
import Motif.Proofs.Registry.Weighing
import Motif.Proofs.Registry.Wording
import Motif.Proofs.Survey.Alternations
import Motif.Proofs.Survey.Coverage
import Motif.Proofs.Survey.Holes
import Motif.Proofs.Survey.Ranking
import Motif.Proofs.Survey.Rematching
import Motif.Proofs.Survey.Repetitions
import Motif.Proofs.Survey.Retiring
import Motif.Proofs.Survey.Searching
import Motif.Proofs.Survey.Statistics
import Motif.Proofs.Survey.Stretches
import Motif.Proofs.Text.Integer
import Motif.Proofs.Text.Lines
import Motif.Proofs.Text.Paragraphs
import Motif.Proofs.Text.Quoted
import Motif.Proofs.Training.Accounting
import Motif.Proofs.Training.Counting
import Motif.Proofs.Training.Culling
import Motif.Proofs.Training.Enduring
import Motif.Proofs.Training.Iterating
import Motif.Proofs.Training.Journal
import Motif.Proofs.Training.Learning
import Motif.Proofs.Training.Lettering
import Motif.Proofs.Training.Naming
import Motif.Proofs.Training.Observing
import Motif.Proofs.Training.Proposing
import Motif.Proofs.Training.Shapes
import Motif.Proofs.Training.Sparing
import Motif.Proofs.Training.Storing
