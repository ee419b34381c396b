import FiberStacks.Proofs.Fibers.Registers
import FiberStacks.Proofs.Growth.Invisible
import FiberStacks.Proofs.Holdings.Conservation
import FiberStacks.Proofs.Holdings.WordStack
import FiberStacks.Proofs.Scan.BackwardPointers
import FiberStacks.Proofs.Scan.Walkable
import FiberStacks.Proofs.Scan.Layout
import FiberStacks.Proofs.Scan.Once
import FiberStacks.Session.Continuations
import FiberStacks.Session.Locals
import FiberStacks.Session.Outcome
import FiberStacks.Session.Scans
import FiberStacks.Proofs.Growth.Ending
import FiberStacks.Proofs.Growth.Recovery
import FiberStacks.Proofs.Settings.Environment
import FiberStacks.Proofs.Growth.Exact
import FiberStacks.Proofs.Continuations.Custody
import FiberStacks.Proofs.Continuations.OneShot
import FiberStacks.Proofs.Fibers.Accounts
import FiberStacks.Proofs.Fibers.NativeCalls
import FiberStacks.Proofs.Growth.FrameRecords
import FiberStacks.Proofs.Scan.Confinement
import FiberStacks.Proofs.Region.Contents
import FiberStacks.Proofs.Scan.FlatScan
import FiberStacks.Proofs.Scan.PoisonedArenas
import FiberStacks.Proofs.Scan.SecondScan
import FiberStacks.Proofs.Scan.SweepBounds
import FiberStacks.Proofs.Settings.Configuration
import FiberStacks.Proofs.Growth.Ladder
import FiberStacks.Proofs.Segment.Geometry
import FiberStacks.Proofs.Holdings.Parents
import FiberStacks.Proofs.Scan.InnermostFrame
import FiberStacks.Proofs.Pool.History
import FiberStacks.Proofs.Journal.Lines
import FiberStacks.Proofs.NamedValue
import FiberStacks.Proofs.Continuations.LastFiber
import FiberStacks.Proofs.Frame
