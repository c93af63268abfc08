import HsmRs.Lib.Program
import HsmRs.Lib.FileSystem
import HsmRs.Lib.Answers
import HsmRs.Lib.Frame
import HsmRs.Lib.Crash
import HsmRs.Lib.Exec
import HsmRs.Lib.Twins
import HsmRs.Lib.Locality
import HsmRs.Lib.Table
import HsmRs.Lib.Pool
import HsmRs.Lib.Trace
import HsmRs.Lib.Loop
import HsmRs.Lib.Success
import HsmRs.Core.Managed
import HsmRs.Core.Lifecycle
import HsmRs.Engine.Workflow
import HsmRs.Local.Metadata
import HsmRs.Local.Util
import HsmRs.Local.Storage
import HsmRs.Local.Archive
import HsmRs.Local.Executor
import HsmRs.Local.Adapters
import HsmRs.Local.Placing
import HsmRs.Local.Moving
import HsmRs.Local.Footprint
import HsmRs.Local.Helpers
import HsmRs.Local.Sealing
import HsmRs.Local.Careful
import HsmRs.Local.Opening
import HsmRs.Local.Reference
import HsmRs.Local.Trial
import HsmRs.Local.Thriving
import HsmRs.Storage.Effects
import HsmRs.Storage.Calls
import HsmRs.Storage.World
import HsmRs.Storage.Holding
import HsmRs.Storage.Play
import HsmRs.Storage.Layouts
import HsmRs.Storage.Residency
import HsmRs.Storage.History
import HsmRs.Storage.Replay
import HsmRs.Storage.Atomicity
import HsmRs.Storage.Ownership
import HsmRs.Storage.Returned
import HsmRs.Storage.Patches
import HsmRs.Storage.Private
import HsmRs.Storage.Orphans
import HsmRs.Storage.Endings
import HsmRs.Storage.Commuting
import HsmRs.Storage.Serving
import HsmRs.Archive.Calls
import HsmRs.Archive.Opening
import HsmRs.Archive.World
import HsmRs.Archive.Play
import HsmRs.Archive.Catalog
import HsmRs.Archive.Stored
import HsmRs.Archive.Durability
import HsmRs.Archive.Epochs
import HsmRs.Archive.Attempts
import HsmRs.Archive.Serving
import HsmRs.Engine.Release
import HsmRs.Engine.Transfers
import HsmRs.Engine.Steady
import HsmRs.Engine.Intent
import HsmRs.Engine.Accountable
import HsmRs.System.World
import HsmRs.System.Play
import HsmRs.System.Views
import HsmRs.System.Upkeep
import HsmRs.System.Durable
import HsmRs.System.Preserved
import HsmRs.System.Releasing
import HsmRs.System.Immutable
import HsmRs.System.Owners
import HsmRs.System.Archiving
import HsmRs.System.Recalling
import HsmRs.System.Lifecycle
import HsmRs.System.Demo
import HsmRs.Curvine.Control
import HsmRs.Curvine.Outcomes
import HsmRs.Curvine.Garbled
import HsmRs.Curvine.Native
import HsmRs.Curvine.Reference
import HsmRs.Curvine.Reading
import HsmRs.Curvine.Chunks
import HsmRs.Curvine.Importing
import HsmRs.Curvine.Cycle
import HsmRs.Curvine.Budget
import HsmRs.Curvine.Scanning
import HsmRs.Curvine.Hashing
import HsmRs.Curvine.Connect
import HsmRs.Curvine.Current
import HsmRs.Curvine.Lanes
import HsmRs.Curvine.Once
import HsmRs.System.Errand
import HsmRs.System.Standing
import HsmRs.System.Trying
import HsmRs.System.Effected
import HsmRs.System.Retrying
