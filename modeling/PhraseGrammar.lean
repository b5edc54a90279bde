import PhraseGrammar.Choice
import PhraseGrammar.CommandLine
import PhraseGrammar.CommandLine.Argument
import PhraseGrammar.CommandLine.Response
import PhraseGrammar.CommandLine.Settings
import PhraseGrammar.CommandLine.Task
import PhraseGrammar.CommandLine.Tool
import PhraseGrammar.Count
import PhraseGrammar.Document.Grammar
import PhraseGrammar.Document.Json.Number
import PhraseGrammar.Document.Json.Printer
import PhraseGrammar.Document.Json.Reader
import PhraseGrammar.Document.Json.Text
import PhraseGrammar.Document.Json.Token
import PhraseGrammar.Document.Ron.Number
import PhraseGrammar.Document.Ron.Reader
import PhraseGrammar.Document.Ron.Text
import PhraseGrammar.Document.Ron.Token
import PhraseGrammar.Document.Token
import PhraseGrammar.Document.Value
import PhraseGrammar.Dot
import PhraseGrammar.Enumeration
import PhraseGrammar.Error
import PhraseGrammar.Expansion
import PhraseGrammar.FileTree
import PhraseGrammar.Generator
import PhraseGrammar.Grammar
import PhraseGrammar.Graph.Basic
import PhraseGrammar.Graph.Build
import PhraseGrammar.Graph.Reachable
import PhraseGrammar.Graph.Recursive
import PhraseGrammar.Lint
import PhraseGrammar.Loading
import PhraseGrammar.Main
import PhraseGrammar.Naming
import PhraseGrammar.Number.Binary64
import PhraseGrammar.Number.Shortest
import PhraseGrammar.Number.Word64
import PhraseGrammar.Outcome
import PhraseGrammar.Path
import PhraseGrammar.Preparation
import PhraseGrammar.Proofs.Article
import PhraseGrammar.Proofs.Bisimulation
import PhraseGrammar.Proofs.Characters
import PhraseGrammar.Proofs.Count
import PhraseGrammar.Proofs.Dedup
import PhraseGrammar.Proofs.Depth
import PhraseGrammar.Proofs.Derivation
import PhraseGrammar.Proofs.Document.Entries
import PhraseGrammar.Proofs.Document.Forms
import PhraseGrammar.Proofs.Document.Grammar
import PhraseGrammar.Proofs.Document.Json.Reader
import PhraseGrammar.Proofs.Document.Json.Text
import PhraseGrammar.Proofs.Document.Json.Values
import PhraseGrammar.Proofs.Document.Reload
import PhraseGrammar.Proofs.Dot.Counts
import PhraseGrammar.Proofs.Dot.Edges
import PhraseGrammar.Proofs.Dot.Graph
import PhraseGrammar.Proofs.Dot.Text
import PhraseGrammar.Proofs.Entered
import PhraseGrammar.Proofs.Enumeration
import PhraseGrammar.Proofs.FileTree
import PhraseGrammar.Proofs.Grammar
import PhraseGrammar.Proofs.Grammar.Index
import PhraseGrammar.Proofs.Grammar.Refusal
import PhraseGrammar.Proofs.Graph.Build
import PhraseGrammar.Proofs.Graph.Buildable
import PhraseGrammar.Proofs.Graph.Declaration
import PhraseGrammar.Proofs.Graph.Dependence
import PhraseGrammar.Proofs.Graph.Derived
import PhraseGrammar.Proofs.Graph.Edits
import PhraseGrammar.Proofs.Graph.Index
import PhraseGrammar.Proofs.Graph.Lent
import PhraseGrammar.Proofs.Graph.Partway
import PhraseGrammar.Proofs.Graph.Reachable
import PhraseGrammar.Proofs.Graph.Recursive
import PhraseGrammar.Proofs.Graph.Refusal
import PhraseGrammar.Proofs.Graph.Spread
import PhraseGrammar.Proofs.Graph.Walk
import PhraseGrammar.Proofs.Graph.WellFormed
import PhraseGrammar.Proofs.Grouped
import PhraseGrammar.Proofs.Ledger
import PhraseGrammar.Proofs.Lint
import PhraseGrammar.Proofs.Lint.Endless
import PhraseGrammar.Proofs.Lint.Repeats
import PhraseGrammar.Proofs.Lint.Warnings
import PhraseGrammar.Proofs.Lists
import PhraseGrammar.Proofs.Loading
import PhraseGrammar.Proofs.Locality
import PhraseGrammar.Proofs.LowerBound
import PhraseGrammar.Proofs.Modifiers
import PhraseGrammar.Proofs.Naming
import PhraseGrammar.Proofs.Path
import PhraseGrammar.Proofs.Preparation
import PhraseGrammar.Proofs.Preparation.Findings
import PhraseGrammar.Proofs.Preparation.Saved
import PhraseGrammar.Proofs.Preparation.Walk
import PhraseGrammar.Proofs.Productive
import PhraseGrammar.Proofs.Questions
import PhraseGrammar.Proofs.Safety
import PhraseGrammar.Proofs.Segmentation
import PhraseGrammar.Proofs.Session
import PhraseGrammar.Proofs.Simulation
import PhraseGrammar.Proofs.Tally
import PhraseGrammar.Proofs.TallyProducts
import PhraseGrammar.Proofs.TallySteps
import PhraseGrammar.Proofs.Template
import PhraseGrammar.Proofs.Truncation
import PhraseGrammar.Rules
import PhraseGrammar.Session
import PhraseGrammar.Template
import PhraseGrammar.Text.Grouped
import PhraseGrammar.Text.Hidden
import PhraseGrammar.Text.Quoted
import PhraseGrammar.Text.Uppercase
