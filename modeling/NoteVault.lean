import NoteVault.Base64
import NoteVault.Number.Reading
import NoteVault.Text.Case
import NoteVault.Text.Utf8
import NoteVault.Value.Json
import NoteVault.Yaml.Source
import NoteVault.Yaml.Fault
import NoteVault.Yaml.Token
import NoteVault.Yaml.Token.Property
import NoteVault.Yaml.Token.Scalar
import NoteVault.Yaml.Token.Scan
import NoteVault.Text.Fields
import NoteVault.Yaml.Tag
import NoteVault.Yaml.Node
import NoteVault.Yaml.Node.Merge
import NoteVault.Dictionary
import NoteVault.Yaml.Node.Value
import NoteVault.Issue
import NoteVault.Note
import NoteVault.Yaml.Block
import NoteVault.Note.Write
import NoteVault.Registry
import NoteVault.Schema.Standard
import NoteVault.Config
import NoteVault.Schema.Summary
import NoteVault.Validation
import NoteVault.Report
import NoteVault.Toml.Document
import NoteVault.Config.File
import NoteVault.Glob
import NoteVault.Folder.Notes
import NoteVault.Graph
import NoteVault.Graph.Export
import NoteVault.Graph.Neighbourhood
import NoteVault.Graph.Search
import NoteVault.Index.Conflicts
import NoteVault.Index.UnknownTypes
import NoteVault.Tables
import NoteVault.Repair
import NoteVault.Scaffold
import NoteVault.Vault
import NoteVault.Proofs.Note.Body
import NoteVault.Proofs.Note.PlainTree
import NoteVault.Proofs.Failure
import NoteVault.Proofs.Index.Consistency
import NoteVault.Proofs.Repair.Keys
import NoteVault.Proofs.Repair.Validity
import NoteVault.Proofs.Repair.Written
import NoteVault.Proofs.Index.Repaired
import NoteVault.Proofs.Repair.Order
import NoteVault.Proofs.Yaml.Node.Placed
import NoteVault.Proofs.Note.Rewrite
import NoteVault.Proofs.Yaml.Written
import NoteVault.Proofs.Note.Idempotence
import NoteVault.Proofs.Note.Answers
import NoteVault.Proofs.Vault
import NoteVault.Proofs.Number.Rounding
import NoteVault.Proofs.Number.Grammar
import NoteVault.Proofs.Number.Shortest
import NoteVault.Proofs.Number.Layout
import NoteVault.Proofs.Yaml.Restores.Float
import NoteVault.Proofs.Base64
import NoteVault.Proofs.Yaml.Restores.Octets
import NoteVault.Proofs.Yaml.Node.Loaded
import NoteVault.Proofs.Note.Kept
import NoteVault.Proofs.Yaml.Moved
import NoteVault.Proofs.Index.Conflicts
import NoteVault.Proofs.Index.Permuted
import NoteVault.Proofs.Graph.Neighbourhood
import NoteVault.Proofs.Tables
import NoteVault.Proofs.Text.Octets
import NoteVault.Proofs.Registry
import NoteVault.Proofs.Graph.Symmetry
import NoteVault.Proofs.Index.UnknownTypes
import NoteVault.Proofs.Graph.Export
import NoteVault.Proofs.Calendar
import NoteVault.Proofs.Schema.Conformance
import NoteVault.Proofs.Migration
import NoteVault.Proofs.Repair.Rename
import NoteVault.Proofs.Repair.Canonical
import NoteVault.Proofs.Value.Links
import NoteVault.Proofs.Validation.Reasons
import NoteVault.Proofs.Repair.Removal
import NoteVault.Proofs.Repair.Filling
import NoteVault.Proofs.Scaffold
import NoteVault.Proofs.Calendar.Order
import NoteVault.Proofs.Validation.Staleness
import NoteVault.Proofs.Config
import NoteVault.Proofs.Yaml.Node.Keyed
import NoteVault.Proofs.Config.Problems
import NoteVault.Proofs.Config.File
import NoteVault.Proofs.Folder.Notes
import NoteVault.Proofs.Graph.Search
import NoteVault.Proofs.Graph.Depth
import NoteVault.Proofs.Graph.Incoming
import NoteVault.Proofs.Text.Slug
