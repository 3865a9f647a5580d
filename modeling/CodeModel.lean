import CodeModel.Cache
import CodeModel.Config
import CodeModel.Config.Toml
import CodeModel.Decimal.Shortest
import CodeModel.Delta.Basic
import CodeModel.Delta.Builder
import CodeModel.Delta.Flags
import CodeModel.Delta.Render
import CodeModel.Delta.Status
import CodeModel.Element.Body
import CodeModel.Element.Handle
import CodeModel.Element.Hash
import CodeModel.Element.Property
import CodeModel.Element.Table
import CodeModel.Error
import CodeModel.Event
import CodeModel.Files.Path
import CodeModel.Files.Tree
import CodeModel.Foo.Cursor
import CodeModel.Foo.Model
import CodeModel.Foo.Parser
import CodeModel.Foo.Syntax
import CodeModel.Recorder
import CodeModel.Recorder.Subsequence
import CodeModel.Session.Basic
import CodeModel.Session.Open
import CodeModel.Session.WorkingCopy
import CodeModel.Store
import CodeModel.Store.WorkingCopy
import CodeModel.Text.Basic
import CodeModel.Text.Buffer
import CodeModel.Text.CharClass
import CodeModel.Text.Edit
import CodeModel.Proofs.Cache.Chronicle
import CodeModel.Proofs.Cache.Entries
import CodeModel.Proofs.Cache.Headroom
import CodeModel.Proofs.Cache.Outright
import CodeModel.Proofs.Cache.Recency
import CodeModel.Proofs.Cache.Requests
import CodeModel.Proofs.Delta.Alike
import CodeModel.Proofs.Delta.Attachments
import CodeModel.Proofs.Delta.Bare
import CodeModel.Proofs.Delta.Bench
import CodeModel.Proofs.Delta.Commute
import CodeModel.Proofs.Delta.Insertion
import CodeModel.Proofs.Delta.Lookup
import CodeModel.Proofs.Delta.Path
import CodeModel.Proofs.Delta.Regular
import CodeModel.Proofs.Delta.Sequential
import CodeModel.Proofs.Delta.Sound
import CodeModel.Proofs.Delta.StepLaw
import CodeModel.Proofs.Delta.Tokens
import CodeModel.Proofs.Element.Apart
import CodeModel.Proofs.Element.Bare
import CodeModel.Proofs.Element.Distinct
import CodeModel.Proofs.Element.Hash
import CodeModel.Proofs.Element.Lexicon
import CodeModel.Proofs.Foo.Acceptance
import CodeModel.Proofs.Foo.Building
import CodeModel.Proofs.Foo.Coherence
import CodeModel.Proofs.Foo.Complete
import CodeModel.Proofs.Foo.Concatenation
import CodeModel.Proofs.Foo.Desk
import CodeModel.Proofs.Foo.Differences
import CodeModel.Proofs.Foo.Elements
import CodeModel.Proofs.Foo.Faithful
import CodeModel.Proofs.Foo.FixedFiles
import CodeModel.Proofs.Foo.Grammar
import CodeModel.Proofs.Foo.Hosting
import CodeModel.Proofs.Foo.InStep
import CodeModel.Proofs.Foo.Innermost
import CodeModel.Proofs.Foo.Lifecycle
import CodeModel.Proofs.Foo.Opening
import CodeModel.Proofs.Foo.Placement
import CodeModel.Proofs.Foo.Queries
import CodeModel.Proofs.Foo.Recached
import CodeModel.Proofs.Foo.Reconciliation
import CodeModel.Proofs.Foo.Steps
import CodeModel.Proofs.Foo.Tally
import CodeModel.Proofs.Foo.Transparency
import CodeModel.Proofs.Foo.Upkeep
import CodeModel.Proofs.Recorder.Compare
import CodeModel.Proofs.Recorder.Confined
import CodeModel.Proofs.Recorder.Differs
import CodeModel.Proofs.Recorder.Exact
import CodeModel.Proofs.Recorder.Law
import CodeModel.Proofs.Recorder.Longest
import CodeModel.Proofs.Recorder.Observable
import CodeModel.Proofs.Recorder.Recording
import CodeModel.Proofs.Recorder.Reordering
import CodeModel.Proofs.Recorder.Snapshot
import CodeModel.Proofs.References.Attended
import CodeModel.Proofs.References.Balance
import CodeModel.Proofs.References.History
import CodeModel.Proofs.References.Numbers
import CodeModel.Proofs.References.Orderly
import CodeModel.Proofs.References.Refusal
import CodeModel.Proofs.References.Turns
import CodeModel.Proofs.Session.Accounts
import CodeModel.Proofs.Session.Dispatch
import CodeModel.Proofs.Session.Failure
import CodeModel.Proofs.Session.Overflow
import CodeModel.Proofs.Session.Requests
import CodeModel.Proofs.Store.Books
import CodeModel.Proofs.Store.Commit
import CodeModel.Proofs.Store.Moves
import CodeModel.Proofs.Store.Overflow
import CodeModel.Proofs.Store.Trail
import CodeModel.Proofs.Text.Splicing
import CodeModel.Proofs.Text.Versions
