import BoundaryTag.Arena.Survey
import BoundaryTag.Growth.Source
import BoundaryTag.Heap.Layout
import BoundaryTag.Heap.Lending
import BoundaryTag.Heap.Stats
import BoundaryTag.Proofs.BadRelease
import BoundaryTag.Proofs.Classes
import BoundaryTag.Proofs.Cycles
import BoundaryTag.Proofs.DataIndependence
import BoundaryTag.Proofs.Exhaustion
import BoundaryTag.Proofs.Failure
import BoundaryTag.Proofs.Grants
import BoundaryTag.Proofs.GrowingAllocation
import BoundaryTag.Proofs.InPlace
import BoundaryTag.Proofs.Layouts
import BoundaryTag.Proofs.LiveBlocks
import BoundaryTag.Proofs.Navigation
import BoundaryTag.Proofs.OverflowOrder
import BoundaryTag.Proofs.Process
import BoundaryTag.Proofs.ReleaseOrder
import BoundaryTag.Proofs.RoundTrip
import BoundaryTag.Proofs.Rounding
import BoundaryTag.Proofs.Shadows
import BoundaryTag.Proofs.SoleBreak
import BoundaryTag.Proofs.Tampering
import BoundaryTag.Proofs.Verdict
