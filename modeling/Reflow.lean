import Reflow.Main
import Reflow.Proofs.CheckedSource
import Reflow.Proofs.Classification
import Reflow.Proofs.Command.Order
import Reflow.Proofs.Comment.Edges
import Reflow.Proofs.Conservation
import Reflow.Proofs.Directives
import Reflow.Proofs.DirectoryWalk
import Reflow.Proofs.Discovery.Order
import Reflow.Proofs.Discovery.Spelling
import Reflow.Proofs.Doc.Coverage
import Reflow.Proofs.Doc.WellFormed
import Reflow.Proofs.Document
import Reflow.Proofs.Expansion
import Reflow.Proofs.FewestLines
import Reflow.Proofs.FinalFeed
import Reflow.Proofs.Locality
import Reflow.Proofs.Merging
import Reflow.Proofs.Overflow
import Reflow.Proofs.Resolution
import Reflow.Proofs.RoundTrip
import Reflow.Proofs.Structure
import Reflow.Proofs.Width
