import CommitSplit.Analysis.Assembly
import CommitSplit.Analysis.Engine
import CommitSplit.Analysis.Report
import CommitSplit.Analysis.Run
import CommitSplit.Change.Basic
import CommitSplit.Change.Listing
import CommitSplit.Collaborator
import CommitSplit.CommandLine.Answer
import CommitSplit.CommandLine.Arguments
import CommitSplit.CommandLine.Complaint
import CommitSplit.CommandLine.Execution
import CommitSplit.CommandLine.Invocation
import CommitSplit.CommandLine.Lookup
import CommitSplit.Config
import CommitSplit.Digraph.Cycle
import CommitSplit.Digraph.Linking
import CommitSplit.Digraph.Traversal
import CommitSplit.Exclude
import CommitSplit.Failure
import CommitSplit.Fields
import CommitSplit.Files.Basic
import CommitSplit.Files.History
import CommitSplit.Files.Tree
import CommitSplit.FirstSeen
import CommitSplit.Glob.Basic
import CommitSplit.Glob.Match
import CommitSplit.Glob.Parser
import CommitSplit.Graph.Basic
import CommitSplit.Graph.Order
import CommitSplit.Group.Basic
import CommitSplit.Group.ChangeSet
import CommitSplit.Group.Formation
import CommitSplit.Group.Validation
import CommitSplit.Imports.Scanner
import CommitSplit.Imports.Specifier
import CommitSplit.Json.Basic
import CommitSplit.Json.Decode
import CommitSplit.Json.Printer
import CommitSplit.Language
import CommitSplit.Main
import CommitSplit.Mode
import CommitSplit.Node
import CommitSplit.NodeKind
import CommitSplit.Options
import CommitSplit.Path.Name
import CommitSplit.Path.Normal
import CommitSplit.Risk
import CommitSplit.Surface
import CommitSplit.Surface.Baseline
import CommitSplit.Surface.Grammar
import CommitSplit.Surface.Names
import CommitSplit.Surface.Piece
import CommitSplit.Surface.Python.Lexer
import CommitSplit.Surface.Python.Listing
import CommitSplit.Surface.Python.Reader
import CommitSplit.Surface.Rust.Item
import CommitSplit.Surface.Rust.Lexer
import CommitSplit.Surface.Rust.Reader
import CommitSplit.Surface.Script.Binding
import CommitSplit.Surface.Script.Lexer
import CommitSplit.Surface.Script.Reader
import CommitSplit.Surface.Script.Token
import CommitSplit.Surface.Source.Span
import CommitSplit.Text.Blank
import CommitSplit.Text.Pattern
import CommitSplit.Text.Utf8
import CommitSplit.Text.Word
import CommitSplit.Toml.Basic
import CommitSplit.Toml.Parser
import CommitSplit.Toml.Quoted
import CommitSplit.Toml.Scalar
import CommitSplit.Proofs.Digraph.Components
import CommitSplit.Proofs.Digraph.Walk
import CommitSplit.Proofs.Digraph.Traversal
import CommitSplit.Proofs.Digraph.Renaming
import CommitSplit.Proofs.Digraph.Roots
import CommitSplit.Proofs.Digraph.Course
import CommitSplit.Proofs.Graph.Construction
import CommitSplit.Proofs.Graph.Dependence
import CommitSplit.Proofs.Graph.Cycles
import CommitSplit.Proofs.Graph.Order
import CommitSplit.Proofs.Graph.Members
import CommitSplit.Proofs.Graph.MemberOrder
import CommitSplit.Proofs.Graph.Loops
import CommitSplit.Proofs.Graph.Search
import CommitSplit.Proofs.Graph.Nodes
import CommitSplit.Proofs.Text.Blank
import CommitSplit.Proofs.Path.Normal
import CommitSplit.Proofs.Attempt
import CommitSplit.Proofs.Table
import CommitSplit.Proofs.Group.Selection
import CommitSplit.Proofs.Group.Validation
import CommitSplit.Proofs.Group.Defects
import CommitSplit.Proofs.Group.Division
import CommitSplit.Proofs.Group.Formation
import CommitSplit.Proofs.Group.Matching
import CommitSplit.Proofs.Digraph.Linking
import CommitSplit.Proofs.Graph.Targets
import CommitSplit.Proofs.Graph.Attachment
import CommitSplit.Proofs.Graph.Growth
import CommitSplit.Proofs.Graph.Tables
import CommitSplit.Proofs.Analysis.Run
import CommitSplit.Proofs.Analysis.Assembly
import CommitSplit.Proofs.Analysis.Enhancement
import CommitSplit.Proofs.Analysis.Interleaving
import CommitSplit.Proofs.Analysis.Turns
import CommitSplit.Proofs.Analysis.Nodes
import CommitSplit.Proofs.Analysis.Scan
import CommitSplit.Proofs.Analysis.Engine
import CommitSplit.Proofs.Analysis.Division
import CommitSplit.Proofs.Analysis.Linking
import CommitSplit.Proofs.Analysis.Failure
import CommitSplit.Proofs.Analysis.CommitOrder
import CommitSplit.Proofs.Analysis.MarkedOrder
import CommitSplit.Proofs.Risk
import CommitSplit.Proofs.Analysis.Risk
import CommitSplit.Proofs.Analysis.ChangeRisk
import CommitSplit.Proofs.Analysis.Surfaces
import CommitSplit.Proofs.Analysis.Cancellation
import CommitSplit.Proofs.Analysis.Regrouping
import CommitSplit.Proofs.Analysis.Shortcut
import CommitSplit.Proofs.Analysis.Relevance
import CommitSplit.Proofs.Analysis.Reordering
import CommitSplit.Proofs.Text.Lines
import CommitSplit.Proofs.Change.Listing
import CommitSplit.Proofs.Change.Acceptance
import CommitSplit.Proofs.Json.Decode
import CommitSplit.Proofs.Json.Records
import CommitSplit.Proofs.Files.History
import CommitSplit.Proofs.Surface.Baseline
import CommitSplit.Proofs.CommandLine.Comparison
import CommitSplit.Proofs.Text.Pattern
import CommitSplit.Proofs.Imports.Lines
import CommitSplit.Proofs.Imports.Layout
import CommitSplit.Proofs.Imports.Search
import CommitSplit.Proofs.Imports.Statements
import CommitSplit.Proofs.Imports.Headers
import CommitSplit.Proofs.Imports.Declarations
import CommitSplit.Proofs.Surface.Script.Lexer
import CommitSplit.Proofs.Surface.Script.Reader
import CommitSplit.Proofs.Surface.Piece
import CommitSplit.Proofs.Surface.Rust.Reader
import CommitSplit.Proofs.Imports.Agreement
import CommitSplit.Proofs.Imports.Requests
import CommitSplit.Proofs.Imports.Reading
import CommitSplit.Proofs.Imports.Resolution
import CommitSplit.Proofs.Path.Shape
import CommitSplit.Proofs.Path.Joining
import CommitSplit.Proofs.Analysis.NodePaths
import CommitSplit.Proofs.Path.Climbing
import CommitSplit.Proofs.Imports.Packages
import CommitSplit.Proofs.Imports.Python.Layout
import CommitSplit.Proofs.Text.Preference
import CommitSplit.Proofs.Imports.Python.Lines
import CommitSplit.Proofs.Imports.Python.Search
import CommitSplit.Proofs.Imports.Python.Names
import CommitSplit.Proofs.Imports.Python.Modules
import CommitSplit.Proofs.Imports.Python.Origins
import CommitSplit.Proofs.Imports.Python.Taken
import CommitSplit.Proofs.Imports.Python.Scanning
import CommitSplit.Proofs.Imports.Python.Sources
import CommitSplit.Proofs.Imports.Python.Wholeness
import CommitSplit.Proofs.Files.Walk
import CommitSplit.Proofs.Files.Spelling
import CommitSplit.Proofs.CommandLine.Baselines
import CommitSplit.Proofs.CommandLine.Existence
import CommitSplit.Proofs.Surface.Names
import CommitSplit.Proofs.Surface.Python.Statements
import CommitSplit.Proofs.Surface.Script.Balanced
import CommitSplit.Proofs.Surface.Script.Pattern
import CommitSplit.Proofs.Surface.Script.Expression
import CommitSplit.Proofs.Surface.Script.Declaration
import CommitSplit.Proofs.Surface.Sighting
import CommitSplit.Proofs.Surface.Script.Sightings
import CommitSplit.Proofs.Surface.Rust.Sightings
import CommitSplit.Proofs.Surface.Python.Sightings
import CommitSplit.Proofs.Surface.FirstMet
