import AheadOfTime.Marking.Table
import AheadOfTime.Handle
import AheadOfTime.World
import AheadOfTime.Compile.Run
import AheadOfTime.Proofs.Marking.FixedPoint
import AheadOfTime.Proofs.Compile.Output
import AheadOfTime.Proofs.Scan.Exact
import AheadOfTime.Proofs.Compile.Allocation
import AheadOfTime.Proofs.Ty.Bounded
import AheadOfTime.Proofs.Scan.Termination
import AheadOfTime.Proofs.Program.Notes
import AheadOfTime.Proofs.Catalog
import AheadOfTime.Proofs.Program.Coherent
import AheadOfTime.Proofs.World
import AheadOfTime.Proofs.Entry
import AheadOfTime.Proofs.Interning
import AheadOfTime.Proofs.Sealing.Declared
import AheadOfTime.Proofs.Scan.Instantiated
import AheadOfTime.Proofs.Scan.Monotone
import AheadOfTime.Proofs.Marking.Reasons
import AheadOfTime.Proofs.Program.Implementation
import AheadOfTime.Proofs.Program.CanonicalDispatch
import AheadOfTime.Proofs.Compile.Required
import AheadOfTime.Proofs.Compile.Linking
import AheadOfTime.Proofs.Sharing
import AheadOfTime.Proofs.Marking.Once
import AheadOfTime.Proofs.Scan.Tolerance
import AheadOfTime.Proofs.Program.SlotTable
import AheadOfTime.Proofs.Method.Origin
import AheadOfTime.Proofs.Program.Casting
import AheadOfTime.Proofs.Program.InterfaceOrder
import AheadOfTime.Proofs.Sealing.Objects
import AheadOfTime.Proofs.Sealing.Casts
import AheadOfTime.Proofs.Closing
import AheadOfTime.Proofs.Override
import AheadOfTime.Proofs.NamedOverrides
import AheadOfTime.Proofs.Naming
import AheadOfTime.Proofs.MergedOverrides
import AheadOfTime.Proofs.Program.SlotSearch
import AheadOfTime.Proofs.IndexSet
import AheadOfTime.Proofs.Marking.Drawing
import AheadOfTime.Proofs.Marking.Counters
