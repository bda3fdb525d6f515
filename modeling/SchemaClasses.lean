import SchemaClasses.Catalog
import SchemaClasses.ClassTable
import SchemaClasses.ClassTable.Linking
import SchemaClasses.CommandLine
import SchemaClasses.Descriptor
import SchemaClasses.Descriptor.Build
import SchemaClasses.Descriptor.Literal
import SchemaClasses.Descriptor.Size
import SchemaClasses.Document
import SchemaClasses.Documentation
import SchemaClasses.Draft
import SchemaClasses.Draft.Alias
import SchemaClasses.Draft.Class
import SchemaClasses.Draft.PropertyType
import SchemaClasses.Enumeration
import SchemaClasses.Enumeration.Entry
import SchemaClasses.Extension
import SchemaClasses.Extension.Grafting
import SchemaClasses.FileTree
import SchemaClasses.Generation
import SchemaClasses.Graph.Reachable
import SchemaClasses.Graph.TopologicalOrder
import SchemaClasses.Json.Basic
import SchemaClasses.Json.Pointer
import SchemaClasses.Json.Printer
import SchemaClasses.Json.Reader
import SchemaClasses.Json.Token
import SchemaClasses.Json.Written
import SchemaClasses.Location
import SchemaClasses.Log
import SchemaClasses.Main
import SchemaClasses.Naming
import SchemaClasses.Naming.Identifier
import SchemaClasses.Number.Binary64
import SchemaClasses.Number.Numeral
import SchemaClasses.Number.Printer
import SchemaClasses.Number.Shortest
import SchemaClasses.Ordered
import SchemaClasses.Output
import SchemaClasses.Proofs.Catalog.Bounds
import SchemaClasses.Proofs.Catalog.Gains
import SchemaClasses.Proofs.Catalog.Growth
import SchemaClasses.Proofs.Catalog.Keys
import SchemaClasses.Proofs.Catalog.Ledger
import SchemaClasses.Proofs.Catalog.Loading
import SchemaClasses.Proofs.Catalog.Parts
import SchemaClasses.Proofs.Catalog.Plain
import SchemaClasses.Proofs.Catalog.Sources
import SchemaClasses.Proofs.Catalog.Titles
import SchemaClasses.Proofs.Catalog.Transparency
import SchemaClasses.Proofs.Catalog.Urls
import SchemaClasses.Proofs.Catalog.Warnings
import SchemaClasses.Proofs.ClassTable.Ancestors
import SchemaClasses.Proofs.ClassTable.Chains
import SchemaClasses.Proofs.ClassTable.Circles
import SchemaClasses.Proofs.ClassTable.Closures
import SchemaClasses.Proofs.ClassTable.Headers
import SchemaClasses.Proofs.ClassTable.InRange
import SchemaClasses.Proofs.ClassTable.Inheritance
import SchemaClasses.Proofs.ClassTable.LocalTypes
import SchemaClasses.Proofs.ClassTable.MemberNames
import SchemaClasses.Proofs.ClassTable.OwnReferences
import SchemaClasses.Proofs.ClassTable.RefClosure
import SchemaClasses.Proofs.ClassTable.Renumbering
import SchemaClasses.Proofs.ClassTable.Spellings
import SchemaClasses.Proofs.Descriptor.Blocks
import SchemaClasses.Proofs.Descriptor.Literals
import SchemaClasses.Proofs.Descriptor.Nodes
import SchemaClasses.Proofs.Descriptor.Sizes
import SchemaClasses.Proofs.Drafting.Additions
import SchemaClasses.Proofs.Drafting.Advancing
import SchemaClasses.Proofs.Drafting.Agreement
import SchemaClasses.Proofs.Drafting.Aliases
import SchemaClasses.Proofs.Drafting.Branches
import SchemaClasses.Proofs.Drafting.Built
import SchemaClasses.Proofs.Drafting.Calls
import SchemaClasses.Proofs.Drafting.Citations
import SchemaClasses.Proofs.Drafting.ClassDerivation
import SchemaClasses.Proofs.Drafting.Coherence
import SchemaClasses.Proofs.Drafting.Complete
import SchemaClasses.Proofs.Drafting.Contributions
import SchemaClasses.Proofs.Drafting.Covered
import SchemaClasses.Proofs.Drafting.Declared
import SchemaClasses.Proofs.Drafting.Derivation
import SchemaClasses.Proofs.Drafting.Documented
import SchemaClasses.Proofs.Drafting.Drafted
import SchemaClasses.Proofs.Drafting.EnumerationDefaults
import SchemaClasses.Proofs.Drafting.Extensions
import SchemaClasses.Proofs.Drafting.Following
import SchemaClasses.Proofs.Drafting.Forwarding
import SchemaClasses.Proofs.Drafting.Freeform
import SchemaClasses.Proofs.Drafting.Grafts
import SchemaClasses.Proofs.Drafting.Growth
import SchemaClasses.Proofs.Drafting.Halting
import SchemaClasses.Proofs.Drafting.Hollow
import SchemaClasses.Proofs.Drafting.Hosts
import SchemaClasses.Proofs.Drafting.InlineObjects
import SchemaClasses.Proofs.Drafting.Inversion
import SchemaClasses.Proofs.Drafting.LegalNames
import SchemaClasses.Proofs.Drafting.Named
import SchemaClasses.Proofs.Drafting.Nesting
import SchemaClasses.Proofs.Drafting.Numbering
import SchemaClasses.Proofs.Drafting.Optionality
import SchemaClasses.Proofs.Drafting.Orderly
import SchemaClasses.Proofs.Drafting.Origins
import SchemaClasses.Proofs.Drafting.References
import SchemaClasses.Proofs.Drafting.ResolvingOrder
import SchemaClasses.Proofs.Drafting.Restoring
import SchemaClasses.Proofs.Drafting.Run
import SchemaClasses.Proofs.Drafting.Sources
import SchemaClasses.Proofs.Drafting.Tasks
import SchemaClasses.Proofs.Drafting.Terminating
import SchemaClasses.Proofs.Drafting.TypeNames
import SchemaClasses.Proofs.Drafting.Watched
import SchemaClasses.Proofs.Enumeration.Acceptance
import SchemaClasses.Proofs.Enumeration.Entries
import SchemaClasses.Proofs.Enumeration.Identifiers
import SchemaClasses.Proofs.Enumeration.Idioms
import SchemaClasses.Proofs.Enumeration.Listing
import SchemaClasses.Proofs.Enumeration.Range
import SchemaClasses.Proofs.FileTree
import SchemaClasses.Proofs.Generation.DepthFirst
import SchemaClasses.Proofs.Generation.Extensions
import SchemaClasses.Proofs.Generation.HandlerFiles
import SchemaClasses.Proofs.Generation.MemberClasses
import SchemaClasses.Proofs.Generation.OutputPaths
import SchemaClasses.Proofs.Generation.Rendering
import SchemaClasses.Proofs.Generation.TitleLookup
import SchemaClasses.Proofs.Generation.UseSites
import SchemaClasses.Proofs.Generation.WorkOrder
import SchemaClasses.Proofs.Generation.WrittenFiles
import SchemaClasses.Proofs.Graph.Cycle
import SchemaClasses.Proofs.Graph.Reachable
import SchemaClasses.Proofs.Graph.Readiness
import SchemaClasses.Proofs.Graph.Renaming
import SchemaClasses.Proofs.Graph.TopologicalOrder
import SchemaClasses.Proofs.Json.Height
import SchemaClasses.Proofs.Json.Occurs
import SchemaClasses.Proofs.Naming
import SchemaClasses.Proofs.Registry
import SchemaClasses.Proofs.Runs
import SchemaClasses.Proofs.Shape
import SchemaClasses.Settings
import SchemaClasses.Settings.Reader
import SchemaClasses.Shape
import SchemaClasses.Text.Blank
import SchemaClasses.Text.Cut
import SchemaClasses.Text.Digits
import SchemaClasses.Text.Uppercase
import SchemaClasses.Text.Uppercase.Table
import SchemaClasses.View
import SchemaClasses.Warning
