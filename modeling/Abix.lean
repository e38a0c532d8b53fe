import Abix.Concurrency.Program
import Abix.Concurrency.Alone
import Abix.Concurrency.Ledger
import Abix.Interface.Lease
import Abix.Interface.LeaseSafety
import Abix.Interface.PinBalance
import Abix.RCU.Domain
import Abix.RCU.Steps
import Abix.RCU.Custody
import Abix.RCU.Client
import Abix.RCU.ReadSafety
import Abix.DLL.Object
import Abix.DLL.Steps
import Abix.DLL.Ownership
import Abix.DLL.Lifecycle
import Abix.DLL.Images
import Abix.RCU.Watermark
import Abix.DLL.Retirement
import Abix.DLL.IndexOrder
import Abix.DLL.Outcome
import Abix.Probing.Mask
import Abix.Probing.Path
import Abix.Runtime.Search
import Abix.Runtime.Slots
import Abix.Runtime.Probes
import Abix.Runtime.Agreement
import Abix.Runtime.Lookup
import Abix.Runtime.Room
import Abix.Concurrency.Places
import Abix.Runtime.SlotPool
import Abix.DLL.CallSteps
import Abix.DLL.CallDiscipline
import Abix.DLL.Serving
import Abix.DLL.RightFunction
import Abix.DLL.PinnedVersion
import Abix.DLL.OneWriter
import Abix.DLL.LatestOutcome
import Abix.RCU.Advancement
import Abix.RCU.BoundedWait
import Abix.RCU.Undisturbed
import Abix.RCU.Deadline
import Abix.RCU.Sole
import Abix.RCU.Cadence
import Abix.RCU.ThreadExit
import Abix.RCU.Reentry
import Abix.Blocks.Packed
import Abix.Model.ABI
import Abix.Interface.Contract
import Abix.Interface.ModuleRegistry
import Abix.Interface.Discovery
import Abix.Interface.Representation
import Abix.Metadata.Descriptor
import Abix.Metadata.Registry
import Abix.Model.Bootstrap
import Abix.Metadata.Bootstrap
import Abix.Runtime.Registration
import Abix.Runtime.Registry
import Abix.Blocks.Keyed
import Abix.Interface.Registry
import Abix.Interface.Ref
import Abix.Interface.BoundSlots
import Abix.DLL.Pointers
import Abix.DLL.PointerCounts
import Abix.DLL.PointerRuns
import Abix.DLL.AtomicPointers
import Abix.Interface.Proxy
import Abix.Interface.Resolve
import Abix.Interface.Owner
import Abix.Interface.OwnerLeases
import Abix.Wire.Sink
import Abix.Wire.Reader
import Abix.Util.Hash
import Abix.Model.Compat
import Abix.Model.LayoutDecoder
import Abix.Model.Map
import Abix.Text.Decimal
import Abix.Interface.Identity
import Abix.Interface.MethodShapes
import Abix.Sorting.Insertion
import Abix.Interface.MethodOrder
import Abix.Folding.Injective
import Abix.Util.Lanes
import Abix.Model.Digests
import Abix.Interface.Changes
import Abix.Trace.Traced
import Abix.Trace.Stride
import Abix.Binary.Image
import Abix.Binary.Detect
import Abix.Binary.MachO
import Abix.Binary.PE
import Abix.Binary.Exports
import Abix.Binary.ELF
import Abix.Binary.Region
import Abix.Runtime.Version
import Abix.Concurrency.Completion
import Abix.RCU.Completion
import Abix.RCU.Draining
import Abix.RCU.OwnSection
import Abix.RCU.EpochWords
import Abix.RCU.Stats
import Abix.RCU.Counting
import Abix.Model.Mapping
import Abix.DLL.Completion
import Abix.DLL.Draining
import Abix.Concurrency.Observed
import Abix.RCU.Taken
import Abix.DLL.Pairing
import Abix.DLL.IndexExposure
import Abix.DLL.Readers
import Abix.DLL.Process
import Abix.DLL.CallRefinement
import Abix.Trace.Collect
import Abix.Binary.ElfContents
import Abix.Binary.MachoContents
import Abix.Binary.PeContents
import Abix.Binary.Decoding
import Abix.Interface.BindingSafety
import Abix.Heap.Exclusive
import Abix.Runtime.Closure
import Abix.Model.Comparison
import Abix.Util.Log
