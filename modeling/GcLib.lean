import GcLib.Heap.OrderTermination
import GcLib.Heap.OrderCounters
import GcLib.Heap.WordWalks
import GcLib.Properties.Accounting
import GcLib.Properties.BlockLayout
import GcLib.Properties.BlockLifecycle
import GcLib.Properties.FinalizationOrder
import GcLib.Properties.NestedCalls
import GcLib.Properties.Reclamation
import GcLib.Properties.ReferenceWalkers
import GcLib.Properties.StopTheWorld
import GcLib.Properties.WeakHandles
import GcLib.Properties.WeakOwnership
import GcLib.Properties.MarkBytes
import GcLib.Properties.Conservation
import GcLib.Properties.ConstructionPinning
import GcLib.Properties.Shutdown
import GcLib.Properties.WordWalks
import GcLib.Properties.PointerLookup
import GcLib.Properties.Idempotence
import GcLib.Properties.MarkBounds
import GcLib.Properties.ArrayLayout
import GcLib.Properties.FailedConstruction
import GcLib.Properties.ArrayConstruction
import GcLib.Properties.FailureAtomicity
import GcLib.Properties.RootOwnership
import GcLib.Properties.StrongOwnership
import GcLib.Properties.PointersInHand
import GcLib.Properties.HandedRoots
import GcLib.Properties.Settling
import GcLib.Properties.ObjectStore
