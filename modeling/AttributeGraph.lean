import AttributeGraph.Attempt
import AttributeGraph.Catalog
import AttributeGraph.CommandLine
import AttributeGraph.Description.Recording
import AttributeGraph.Description.Restoration
import AttributeGraph.Heap.Equality
import AttributeGraph.Heap.Validation
import AttributeGraph.Main
import AttributeGraph.Proofs.Acceptance
import AttributeGraph.Proofs.AttributeNames
import AttributeGraph.Proofs.Backtracking
import AttributeGraph.Proofs.Building
import AttributeGraph.Proofs.Checking
import AttributeGraph.Proofs.Climbing
import AttributeGraph.Proofs.CodeUnits
import AttributeGraph.Proofs.Constructing
import AttributeGraph.Proofs.Converting
import AttributeGraph.Proofs.CopyIsolation
import AttributeGraph.Proofs.Copying
import AttributeGraph.Proofs.Coverage
import AttributeGraph.Proofs.Custody
import AttributeGraph.Proofs.Describing
import AttributeGraph.Proofs.DottedText
import AttributeGraph.Proofs.Duplicates
import AttributeGraph.Proofs.Encounters
import AttributeGraph.Proofs.EqualCoverage
import AttributeGraph.Proofs.EqualReading
import AttributeGraph.Proofs.Equality
import AttributeGraph.Proofs.Exploration
import AttributeGraph.Proofs.Filling
import AttributeGraph.Proofs.FullCoverage
import AttributeGraph.Proofs.Grammar
import AttributeGraph.Proofs.Growth
import AttributeGraph.Proofs.HalfBuilt
import AttributeGraph.Proofs.Inheritance
import AttributeGraph.Proofs.Inserting
import AttributeGraph.Proofs.Json
import AttributeGraph.Proofs.KeyOrder
import AttributeGraph.Proofs.LateTypes
import AttributeGraph.Proofs.Levels
import AttributeGraph.Proofs.Links
import AttributeGraph.Proofs.Listing
import AttributeGraph.Proofs.Maintenance
import AttributeGraph.Proofs.Matching
import AttributeGraph.Proofs.Materialising
import AttributeGraph.Proofs.Mates
import AttributeGraph.Proofs.MissingSupers
import AttributeGraph.Proofs.MutualLinks
import AttributeGraph.Proofs.NameReaders
import AttributeGraph.Proofs.NearestType
import AttributeGraph.Proofs.Nodewise
import AttributeGraph.Proofs.Operations
import AttributeGraph.Proofs.Ordered
import AttributeGraph.Proofs.Orphans
import AttributeGraph.Proofs.Ownership
import AttributeGraph.Proofs.Parsing
import AttributeGraph.Proofs.PathEdits
import AttributeGraph.Proofs.PathOrder
import AttributeGraph.Proofs.PathReaders
import AttributeGraph.Proofs.PathTexts
import AttributeGraph.Proofs.PathTree
import AttributeGraph.Proofs.Profiles
import AttributeGraph.Proofs.Reading
import AttributeGraph.Proofs.Redescribing
import AttributeGraph.Proofs.Rendering
import AttributeGraph.Proofs.Reparenting
import AttributeGraph.Proofs.Reporting
import AttributeGraph.Proofs.Resaving
import AttributeGraph.Proofs.ResolutionOrder
import AttributeGraph.Proofs.Resolving
import AttributeGraph.Proofs.RestoredPlaces
import AttributeGraph.Proofs.Resuming
import AttributeGraph.Proofs.Revalidating
import AttributeGraph.Proofs.RoundTrip
import AttributeGraph.Proofs.Schema
import AttributeGraph.Proofs.ShortCircuits
import AttributeGraph.Proofs.SlotHistory
import AttributeGraph.Proofs.Trails
import AttributeGraph.Proofs.TreeChecks
import AttributeGraph.Proofs.UnknownAttributes
import AttributeGraph.Proofs.Untangled
import AttributeGraph.Proofs.VisibleText
import AttributeGraph.Proofs.Vouching
import AttributeGraph.Proofs.Walks
import AttributeGraph.Proofs.WellFormed
import AttributeGraph.Proofs.Wrapping
