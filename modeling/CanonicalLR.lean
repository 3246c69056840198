import CanonicalLR.Journal
import CanonicalLR.Main
import CanonicalLR.Parser.Recorder
import CanonicalLR.Parser.Replay
import CanonicalLR.Proofs.Derivation.Starts
import CanonicalLR.Proofs.Derivation.Looping
import CanonicalLR.Proofs.Saturate
import CanonicalLR.Proofs.Symbol.Registry
import CanonicalLR.Proofs.Symbol.Set
import CanonicalLR.Proofs.Analysis
import CanonicalLR.Proofs.Item.Holding
import CanonicalLR.Proofs.Item.Closure
import CanonicalLR.Proofs.Automaton.Moves
import CanonicalLR.Proofs.Automaton.Settling
import CanonicalLR.Proofs.Automaton.Depth
import CanonicalLR.Proofs.Grammar.Built
import CanonicalLR.Proofs.Grammar.Collection
import CanonicalLR.Proofs.Grammar.Rows
import CanonicalLR.Proofs.Grammar.Configured
import CanonicalLR.Proofs.Automaton.ValidItems
import CanonicalLR.Proofs.Grammar.ViablePrefixes
import CanonicalLR.Proofs.Parser.Steps
import CanonicalLR.Proofs.Parser.Recorded
import CanonicalLR.Proofs.Parser.Stack
import CanonicalLR.Proofs.Parser.Soundness
import CanonicalLR.Proofs.Parser.Reading
import CanonicalLR.Proofs.Parser.Acceptance
import CanonicalLR.Proofs.Parser.Exactness
import CanonicalLR.Proofs.Parser.ErrorDetection
import CanonicalLR.Proofs.Parser.Halting
import CanonicalLR.Proofs.Text
import CanonicalLR.Proofs.Symbol.Map
import CanonicalLR.Proofs.Grammar.Regular
import CanonicalLR.Proofs.Table.Reached
import CanonicalLR.Proofs.Table.RoundTrip
import CanonicalLR.Proofs.Calculator.Climbing
import CanonicalLR.Proofs.Grammar.Resolved
import CanonicalLR.Proofs.Calculator.Places
import CanonicalLR.Proofs.Calculator.Stack
import CanonicalLR.Proofs.Calculator.Openings
import CanonicalLR.Proofs.Scanner.Longest
import CanonicalLR.Proofs.Scanner.Tokens
import CanonicalLR.Proofs.Calculator.Parsing
import CanonicalLR.Proofs.Grammar.Resolution
import CanonicalLR.Proofs.Grammar.LaidOut
import CanonicalLR.Proofs.Results
import CanonicalLR.Proofs.GrammarFile.Names
import CanonicalLR.Proofs.Report
import CanonicalLR.Proofs.Compile
import CanonicalLR.Proofs.Grammar.Renaming
import CanonicalLR.Proofs.Grammar.Reordering
import CanonicalLR.Proofs.Parser.Reordering
import CanonicalLR.Proofs.Calculator.Printing
import CanonicalLR.Proofs.Calculator.Reparsing
import CanonicalLR.Proofs.Calculator.Reprinting
import CanonicalLR.Proofs.Calculator.Modes
import CanonicalLR.Proofs.Grammar.Operations
import CanonicalLR.Proofs.Parser.Indexing
import CanonicalLR.Proofs.Parser.Reuse
import CanonicalLR.Proofs.Grammar.FirstSets
import CanonicalLR.Proofs.Grammar.Worklist
import CanonicalLR.Proofs.Grammar.Freshness
import CanonicalLR.Proofs.Calculator.Building
import CanonicalLR.Proofs.Item.Least
import CanonicalLR.Proofs.Decimal.Nearest
import CanonicalLR.Proofs.Scanner.Yields
import CanonicalLR.Proofs.Scanner.Runs
import CanonicalLR.Proofs.Scanner.Lexical
import CanonicalLR.Proofs.Scanner.LongestMatch
import CanonicalLR.Proofs.Scanner.Spacing
import CanonicalLR.Proofs.Symbol.Requests
import CanonicalLR.Proofs.Symbol.IndexMap
import CanonicalLR.Proofs.Symbol.Table
import CanonicalLR.Proofs.GrammarFile.Meaning
import CanonicalLR.Proofs.GrammarFile.Lexemes
import CanonicalLR.Proofs.GrammarFile.Printing
import CanonicalLR.Proofs.GrammarFile.Rereading
import CanonicalLR.Proofs.Parser.Positions
import CanonicalLR.Proofs.Scanner.Trimming
import CanonicalLR.Proofs.Calculator.Positions
import CanonicalLR.Proofs.Symbol.FiniteSets
import CanonicalLR.Proofs.Grammar.Catalog
