import JavaAtlas.Attribution
import JavaAtlas.Classpath.Basic
import JavaAtlas.Classpath.EmptyArchive
import JavaAtlas.Classpath.Entries
import JavaAtlas.Completion.Candidates
import JavaAtlas.Completion.Context
import JavaAtlas.Completion.Rank
import JavaAtlas.Completion.Site
import JavaAtlas.Data.BitSet
import JavaAtlas.Data.Kahn
import JavaAtlas.Data.Reach
import JavaAtlas.Data.SortedMap
import JavaAtlas.Data.SortedSet
import JavaAtlas.Diagnostic
import JavaAtlas.Digest.Fingerprint
import JavaAtlas.Digest.Sha256
import JavaAtlas.Disk
import JavaAtlas.Engine.Api
import JavaAtlas.Engine.Basic
import JavaAtlas.Engine.Order
import JavaAtlas.Engine.Queue
import JavaAtlas.Engine.Recompute
import JavaAtlas.Fuzzy.Level
import JavaAtlas.Fuzzy.Matcher
import JavaAtlas.Fuzzy.Rank
import JavaAtlas.Fuzzy.Score
import JavaAtlas.Fuzzy.Trigram
import JavaAtlas.Fuzzy.TrigramTable
import JavaAtlas.Index.Hierarchy
import JavaAtlas.Index.PrefixScan
import JavaAtlas.Index.Query
import JavaAtlas.Index.Search
import JavaAtlas.Index.Snapshot
import JavaAtlas.Index.Update
import JavaAtlas.Java.Grammar
import JavaAtlas.Java.Grammar.Declarations
import JavaAtlas.Java.Grammar.Expressions
import JavaAtlas.Java.Grammar.Literals
import JavaAtlas.Java.Grammar.Statements
import JavaAtlas.Java.Parse
import JavaAtlas.Java.Phrase
import JavaAtlas.Java.Rule
import JavaAtlas.Java.Tree
import JavaAtlas.Naming
import JavaAtlas.Parsing.Automaton
import JavaAtlas.Parsing.Grammar
import JavaAtlas.Parsing.Item
import JavaAtlas.Parsing.Lexer
import JavaAtlas.Parsing.Machine
import JavaAtlas.Parsing.Merge
import JavaAtlas.Parsing.Nfa
import JavaAtlas.Parsing.Overlap
import JavaAtlas.Parsing.Pattern
import JavaAtlas.Parsing.Reader
import JavaAtlas.Parsing.Recovery
import JavaAtlas.Parsing.Source
import JavaAtlas.Parsing.Stack
import JavaAtlas.Parsing.Subtree
import JavaAtlas.Parsing.Table
import JavaAtlas.Path
import JavaAtlas.Progress.Board
import JavaAtlas.Progress.Channel
import JavaAtlas.Progress.Handles
import JavaAtlas.Progress.Pool
import JavaAtlas.Project
import JavaAtlas.Proofs.Attribution.Accounting
import JavaAtlas.Proofs.Attribution.LocalClasses
import JavaAtlas.Proofs.Attribution.Scopes
import JavaAtlas.Proofs.Completion.Packages
import JavaAtlas.Proofs.Completion.Rank
import JavaAtlas.Proofs.Completion.Site
import JavaAtlas.Proofs.Completion.Superclass
import JavaAtlas.Proofs.Data.Kahn
import JavaAtlas.Proofs.Data.MultiMap
import JavaAtlas.Proofs.Data.Reach
import JavaAtlas.Proofs.Data.SortedMap
import JavaAtlas.Proofs.Engine.Acceptance
import JavaAtlas.Proofs.Engine.Batch
import JavaAtlas.Proofs.Engine.Converging
import JavaAtlas.Proofs.Engine.Dangling
import JavaAtlas.Proofs.Engine.Drain
import JavaAtlas.Proofs.Engine.Edits
import JavaAtlas.Proofs.Engine.Effect
import JavaAtlas.Proofs.Engine.Extracted
import JavaAtlas.Proofs.Engine.Interleaving
import JavaAtlas.Proofs.Engine.LoadOrder
import JavaAtlas.Proofs.Engine.Moments
import JavaAtlas.Proofs.Engine.NoLostChange
import JavaAtlas.Proofs.Engine.Offers
import JavaAtlas.Proofs.Engine.Opening
import JavaAtlas.Proofs.Engine.Order
import JavaAtlas.Proofs.Engine.Overtaken
import JavaAtlas.Proofs.Engine.OwnSymbols
import JavaAtlas.Proofs.Engine.RebindAtRest
import JavaAtlas.Proofs.Engine.Rebinding
import JavaAtlas.Proofs.Engine.Records
import JavaAtlas.Proofs.Engine.RecordsKept
import JavaAtlas.Proofs.Engine.Retries
import JavaAtlas.Proofs.Engine.SearchMemo
import JavaAtlas.Proofs.Engine.Settled
import JavaAtlas.Proofs.Engine.Spelling
import JavaAtlas.Proofs.Engine.Steady
import JavaAtlas.Proofs.Engine.StoreAgrees
import JavaAtlas.Proofs.Engine.StoreAtRest
import JavaAtlas.Proofs.Engine.Stores
import JavaAtlas.Proofs.Engine.Termination
import JavaAtlas.Proofs.Engine.Traced
import JavaAtlas.Proofs.Engine.Undelivered
import JavaAtlas.Proofs.Engine.WarmRecords
import JavaAtlas.Proofs.Engine.WarmStart
import JavaAtlas.Proofs.Fuzzy.Level
import JavaAtlas.Proofs.Fuzzy.Matcher
import JavaAtlas.Proofs.Fuzzy.Placement
import JavaAtlas.Proofs.Fuzzy.Rank
import JavaAtlas.Proofs.Fuzzy.Score
import JavaAtlas.Proofs.Fuzzy.SortedWords
import JavaAtlas.Proofs.Fuzzy.Trigram
import JavaAtlas.Proofs.Fuzzy.TrigramTable
import JavaAtlas.Proofs.Index.Exact
import JavaAtlas.Proofs.Index.Graph
import JavaAtlas.Proofs.Index.Hierarchy
import JavaAtlas.Proofs.Index.Lookup
import JavaAtlas.Proofs.Index.Names
import JavaAtlas.Proofs.Index.Nearest
import JavaAtlas.Proofs.Index.PrefixScan
import JavaAtlas.Proofs.Index.Rebuild
import JavaAtlas.Proofs.Index.Search
import JavaAtlas.Proofs.Path
import JavaAtlas.Proofs.Path.Detours
import JavaAtlas.Proofs.Progress.Board
import JavaAtlas.Proofs.Progress.Handles
import JavaAtlas.Proofs.Queue.History
import JavaAtlas.Proofs.Queue.Outstanding
import JavaAtlas.Proofs.Queue.Promises
import JavaAtlas.Proofs.Queue.Sessions
import JavaAtlas.Proofs.Queue.Waiting
import JavaAtlas.Proofs.Queue.Workload
import JavaAtlas.Proofs.Record.Canonical
import JavaAtlas.Proofs.Record.RoundTrip
import JavaAtlas.Proofs.Registry.Changes
import JavaAtlas.Proofs.Registry.EventLog
import JavaAtlas.Proofs.Store.Filed
import JavaAtlas.Proofs.Store.Lookup
import JavaAtlas.Proofs.Store.Marker
import JavaAtlas.Proofs.Store.Refinement
import JavaAtlas.Proofs.Store.Reopening
import JavaAtlas.Proofs.Store.Written
import JavaAtlas.Proofs.Symbols.Api
import JavaAtlas.Proofs.Symbols.Bindings
import JavaAtlas.Proofs.Symbols.Exported
import JavaAtlas.Proofs.Symbols.Listing
import JavaAtlas.Proofs.Symbols.RetryKeys
import JavaAtlas.Proofs.Text.ByteOrder
import JavaAtlas.Proofs.Text.Ends
import JavaAtlas.Proofs.Text.Split
import JavaAtlas.Proofs.Unit.Nesting
import JavaAtlas.Proofs.Unit.Origin
import JavaAtlas.Proofs.Unit.Places
import JavaAtlas.Proofs.Unit.Relocation
import JavaAtlas.Proofs.Unit.Supertypes
import JavaAtlas.Proofs.Unit.SyntaxErrors
import JavaAtlas.Proofs.Unit.Trace
import JavaAtlas.Proofs.Unit.Transparency
import JavaAtlas.Proofs.Unit.Visits
import JavaAtlas.Proofs.Unit.WellFormed
import JavaAtlas.Record.Codec
import JavaAtlas.Record.Layout
import JavaAtlas.Registry.Basic
import JavaAtlas.Registry.Snapshot
import JavaAtlas.Settings.Config
import JavaAtlas.Settings.FieldPattern
import JavaAtlas.Settings.LogLevel
import JavaAtlas.Settings.Toml
import JavaAtlas.Store.Directory
import JavaAtlas.Store.Location
import JavaAtlas.Store.Raw
import JavaAtlas.Symbols.Basic
import JavaAtlas.Symbols.Extraction
import JavaAtlas.Text.Blank
import JavaAtlas.Text.Identifier
import JavaAtlas.Text.Ranges
import JavaAtlas.Text.Span
import JavaAtlas.Text.Split
import JavaAtlas.Text.Utf8
import JavaAtlas.Unit.Basic
import JavaAtlas.Unit.Lowering
import JavaAtlas.Unit.Parse
import JavaAtlas.Unit.ParseCache
import JavaAtlas.Unit.SyntaxErrors
