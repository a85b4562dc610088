import PartPatch.Fragment.Template
import PartPatch.Json.Printer
import PartPatch.Json.Reader
import PartPatch.Path.Printer
import PartPatch.Path.Reader
import PartPatch.Token.Table
import PartPatch.Toml.Reader
import PartPatch.Tree.Content
import PartPatch.Tree.Edit
import PartPatch.Tree.Order
import PartPatch.Xml.Printer
import PartPatch.Xml.Reader
import PartPatch.Text.Hidden
import PartPatch.Text.Quoted
import PartPatch.Version.Basic
import PartPatch.Version.Reader
import PartPatch.Version.Requirement
import PartPatch.Entries
import PartPatch.Fragment.Basic
import PartPatch.Identifier.Space
import PartPatch.Registry.Document
import PartPatch.Registry.Reader
import PartPatch.Similarity
import PartPatch.Registry.Basic
import PartPatch.Registry.Compile
import PartPatch.Files
import PartPatch.Registry.Load
import PartPatch.Binding.Basic
import PartPatch.Binding.Cache
import PartPatch.Fragment.Instance
import PartPatch.Selection
import PartPatch.Patch.Document
import PartPatch.Patch.Issue
import PartPatch.Patch.Load
import PartPatch.Package.Basic
import PartPatch.Package.Directory
import PartPatch.Package.Memory
import PartPatch.Patch.Session
import PartPatch.Token.Load
import PartPatch.Cli.Apply
import PartPatch.Cli.Check
import PartPatch.Cli.Help
import PartPatch.Cli.List
import PartPatch.Cli.Run
import PartPatch.Main
import PartPatch.Proofs.Tree.Nodes
import PartPatch.Proofs.Tree.WellFormed
import PartPatch.Proofs.Tree.Order
import PartPatch.Proofs.Tree.Content
import PartPatch.Proofs.Tree.Mirror
import PartPatch.Proofs.Tree.MirrorEdit
import PartPatch.Proofs.Selection
import PartPatch.Proofs.Patch.Rollback
import PartPatch.Proofs.Tree.Edit
import PartPatch.Proofs.Tree.Plant
import PartPatch.Proofs.Except
import PartPatch.Proofs.Tree.Compact
import PartPatch.Proofs.Tree.Forest
import PartPatch.Proofs.Tree.Elements
import PartPatch.Proofs.Xml.Reader
import PartPatch.Proofs.Xml.Prefix
import PartPatch.Proofs.Entries
import PartPatch.Proofs.Path.Reader
import PartPatch.Proofs.Registry.Compile
import PartPatch.Proofs.Registry.Names
import PartPatch.Proofs.Binding
import PartPatch.Proofs.Patch.Target
import PartPatch.Proofs.Patch.Mirror
import PartPatch.Proofs.Patch.Change
import PartPatch.Proofs.Fragment.Instance
import PartPatch.Proofs.Patch.Safety
import PartPatch.Proofs.Patch.Reach
import PartPatch.Proofs.Patch.Lockstep
import PartPatch.Proofs.Patch.Append
import PartPatch.Proofs.Fragment.Identifiers
import PartPatch.Proofs.Patch.Identifiers
import PartPatch.Proofs.Patch.Prefix
import PartPatch.Proofs.Text.Cut
import PartPatch.Proofs.Xml.Escape
import PartPatch.Proofs.Xml.Tag
import PartPatch.Proofs.Tree.Normal
import PartPatch.Proofs.Tree.Skeleton
import PartPatch.Proofs.Xml.Document
import PartPatch.Proofs.Xml.Legible
import PartPatch.Proofs.Xml.RoundTrip
import PartPatch.Proofs.Path.Canonical
import PartPatch.Proofs.Path.Within
import PartPatch.Proofs.Registry.Issues
import PartPatch.Proofs.Registry.Coverage
import PartPatch.Proofs.Tree.Pairing
import PartPatch.Proofs.Patch.Meaning
import PartPatch.Proofs.Patch.Validate
import PartPatch.Proofs.Tree.Shape
import PartPatch.Proofs.Patch.Removal
import PartPatch.Proofs.Patch.Report
import PartPatch.Proofs.Patch.Anew
import PartPatch.Proofs.Patch.Repeat
import PartPatch.Proofs.Patch.Converge
import PartPatch.Proofs.Xml.Scoping
import PartPatch.Proofs.Patch.TopLevel
import PartPatch.Proofs.Tree.Listing
import PartPatch.Proofs.Xml.Bare
import PartPatch.Proofs.Xml.Tags
import PartPatch.Proofs.Fragment.Document
import PartPatch.Proofs.Fragment.Rendering
import PartPatch.Proofs.Fragment.RoundTrip
import PartPatch.Proofs.Registry.Layer
import PartPatch.Proofs.Registry.Fingerprint
import PartPatch.Proofs.Binding.Cache
import PartPatch.Proofs.Files
import PartPatch.Proofs.Package.Relationship
import PartPatch.Proofs.Package.Memory
import PartPatch.Proofs.Package.Directory
import PartPatch.Proofs.Package.Call
import PartPatch.Proofs.Patch.Trace
import PartPatch.Proofs.Patch.Creation
import PartPatch.Proofs.Patch.Bodies
import PartPatch.Proofs.Package.Rehearsal
import PartPatch.Proofs.Patch.Rehearsal
import PartPatch.Proofs.Package.Retry
import PartPatch.Proofs.Cli.Apply
import PartPatch.Proofs.Tree.Outline
import PartPatch.Proofs.Patch.Addition
import PartPatch.Proofs.Patch.Deletion
import PartPatch.Proofs.Patch.Assignment
import PartPatch.Proofs.Fragment.Placeholder
import PartPatch.Proofs.Json.Ordered
import PartPatch.Proofs.Token.Layout
import PartPatch.Proofs.Token.Leaves
import PartPatch.Proofs.Tree.InOrder
import PartPatch.Proofs.Tree.Renumbered
import PartPatch.Proofs.Xml.Outcome
import PartPatch.Proofs.Package.Numbering
import PartPatch.Proofs.Identifier.Run
import PartPatch.Proofs.Tree.Traversal
