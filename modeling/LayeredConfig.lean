import LayeredConfig.Main
import LayeredConfig.Proofs.Layers.Groups
import LayeredConfig.Proofs.Layers.Ranking
import LayeredConfig.Proofs.Load.Collected
import LayeredConfig.Proofs.Load.Naming
import LayeredConfig.Proofs.Load.Rounds
import LayeredConfig.Proofs.Load.Siblings
import LayeredConfig.Proofs.Load.Visits
import LayeredConfig.Proofs.Order
import LayeredConfig.Proofs.Precedence.Documents
import LayeredConfig.Proofs.Precedence.Locations
import LayeredConfig.Proofs.Precedence.Profiles
import LayeredConfig.Proofs.Chain
import LayeredConfig.Proofs.Layers.Splice
import LayeredConfig.Proofs.Load.Steps
import LayeredConfig.Proofs.Load.Announce
import LayeredConfig.Proofs.Load.Frame
import LayeredConfig.Proofs.Load.Requests
import LayeredConfig.Proofs.Load.Active
import LayeredConfig.Proofs.Load.Sweeps
import LayeredConfig.Proofs.Load.Settled
import LayeredConfig.Proofs.Load.Judgement
import LayeredConfig.Proofs.Load.OwnFiles
import LayeredConfig.Proofs.Load.Completeness
import LayeredConfig.Proofs.Layers.Blocks
import LayeredConfig.Proofs.Precedence.Reference
import LayeredConfig.Proofs.Load.Hidden
import LayeredConfig.Proofs.Load.Anew
import LayeredConfig.Proofs.Load.SameFile
import LayeredConfig.Proofs.Load.Sections
import LayeredConfig.Proofs.Profile.Calls
import LayeredConfig.Proofs.Load.Locking
import LayeredConfig.Proofs.Load.Reports
import LayeredConfig.Proofs.Placeholder.Pieces
import LayeredConfig.Proofs.Placeholder.Fixpoint
import LayeredConfig.Proofs.Placeholder.Cycles
import LayeredConfig.Proofs.Profile.Words
import LayeredConfig.Proofs.Profile.Grammar
import LayeredConfig.Proofs.Profile.Nesting
import LayeredConfig.Proofs.Profile.Printing
import LayeredConfig.Proofs.Layers.Offers
import LayeredConfig.Proofs.SearchPath.ProbeOrder
import LayeredConfig.Proofs.Path.Clean
import LayeredConfig.Proofs.Path.Again
import LayeredConfig.Proofs.Path.Lexical
import LayeredConfig.Proofs.SearchPath.FileLocations
import LayeredConfig.Proofs.Profile.Inclusion
import LayeredConfig.Proofs.Environment.StoredNames
import LayeredConfig.Proofs.Environment.NamedProfiles
import LayeredConfig.Proofs.Tree.Reading
import LayeredConfig.Proofs.Tree.Sources
import LayeredConfig.Proofs.Format.Handlers
import LayeredConfig.Proofs.Chain.Calls
import LayeredConfig.Source.Indexed
import LayeredConfig.Proofs.Source.Insertions
import LayeredConfig.Proofs.Environment.References
import LayeredConfig.Proofs.Load.DocumentNames
import LayeredConfig.Proofs.Properties.Definitions
import LayeredConfig.Proofs.Source.Lists
import LayeredConfig.Proofs.Properties.LineEnds
import LayeredConfig.Proofs.Properties.Origins
