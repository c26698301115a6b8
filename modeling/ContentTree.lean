import ContentTree.Crc32
import ContentTree.Text.Search
import ContentTree.Edit.Normalize
import ContentTree.Edit.Document
import ContentTree.Edit.Component
import ContentTree.Main
import ContentTree.Proofs.Draft.Writes
import ContentTree.Proofs.Tree.WellFormed
import ContentTree.Proofs.Tree.Branch
import ContentTree.Proofs.Draft.Attach
import ContentTree.Proofs.Draft.Detach
import ContentTree.Proofs.Draft.Growth
import ContentTree.Proofs.Draft.Change
import ContentTree.Proofs.Draft.Documents
import ContentTree.Proofs.Draft.Journal
import ContentTree.Proofs.Edit.Composed
import ContentTree.Proofs.Session.Reach
import ContentTree.Proofs.Merge.Carry
import ContentTree.Proofs.Merge.Converge
import ContentTree.Proofs.Edit.Synced
import ContentTree.Proofs.Session.Synced
import ContentTree.Proofs.Tree.Sever
import ContentTree.Proofs.View.Agree
import ContentTree.Proofs.View.Hidden
import ContentTree.Proofs.View.Noninterference
import ContentTree.Proofs.Merge.Refusal
import ContentTree.Proofs.Merge.Agreement
import ContentTree.Proofs.Draft.Sharing
import ContentTree.Proofs.Session.Sharing
import ContentTree.Proofs.Session.Persistence
import ContentTree.Proofs.Draft.Versions
import ContentTree.Proofs.Session.Versions
import ContentTree.Proofs.Edit.Departures
import ContentTree.Proofs.Session.Access
import ContentTree.Proofs.Tree.Export
import ContentTree.Proofs.Session.Inward
import ContentTree.Proofs.View.Record
import ContentTree.Proofs.View.Scope
import ContentTree.Proofs.View.Export
import ContentTree.Proofs.Draft.Number
import ContentTree.Proofs.Draft.Import
import ContentTree.Proofs.Pairs
import ContentTree.Proofs.Json.Token
import ContentTree.Proofs.Json.Document
import ContentTree.Proofs.Json.Record
import ContentTree.Proofs.Node.Json
import ContentTree.Proofs.Snapshot.Json
import ContentTree.Proofs.Merge.Json
import ContentTree.Proofs.Text.Search
import ContentTree.Proofs.Html.Escape
import ContentTree.Proofs.Except
import ContentTree.Proofs.Directive.Comment
import ContentTree.Proofs.Expression.Grammar
import ContentTree.Proofs.View.Cancel
import ContentTree.Proofs.View.Content
import ContentTree.Proofs.Html.Nested
import ContentTree.Proofs.View.Nested
import ContentTree.Proofs.Edit.Splice
import ContentTree.Proofs.Session.Insertion
import ContentTree.Proofs.Edit.Refused
import ContentTree.Proofs.Merge.Applied
import ContentTree.Proofs.Tree.Runs
import ContentTree.Proofs.Draft.Join
import ContentTree.Proofs.Tree.Gather
import ContentTree.Proofs.Edit.Normalize
import ContentTree.Proofs.Session.Normalization
import ContentTree.Proofs.Tree.Fingerprint
import ContentTree.Proofs.Tree.Renaming
import ContentTree.Proofs.Merge.Renaming
import ContentTree.Proofs.Draft.Copy
import ContentTree.Proofs.Session.Cloning
import ContentTree.Proofs.Draft.Unversioned
import ContentTree.Proofs.Edit.Unversioned
import ContentTree.Proofs.Edit.Script
import ContentTree.Proofs.Session.Grouping
import ContentTree.Proofs.Directive.Closing
import ContentTree.Proofs.Expression.Placeholder
import ContentTree.Proofs.Expression.Spelling
import ContentTree.Proofs.Expression.Printer
import ContentTree.Proofs.Tree.Traversal
import ContentTree.Proofs.Merge.Rows
import ContentTree.Proofs.Merge.Soundness
