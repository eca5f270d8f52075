import Hypercomm.TreeBuilder.Network
import Hypercomm.TreeBuilder.Quiescence
import Hypercomm.TreeBuilder.Counters
import Hypercomm.TreeBuilder.DynamicInsertion
import Hypercomm.Core.Threading
import Hypercomm.Core.PortQueue
import Hypercomm.Messaging.Conservation
import Hypercomm.Messaging.Ancestors
import Hypercomm.Messaging.Forwarding
import Hypercomm.Messaging.NullValue
import Hypercomm.Messaging.ZeroCopy
import Hypercomm.Tasking.Determinism
import Hypercomm.Tasking.Reduction
import Hypercomm.Sections.Broadcast
import Hypercomm.Reductions.Interference
import Hypercomm.Components.Mailbox
import Hypercomm.Components.Cascade
import Hypercomm.Components.Returns
import Hypercomm.Components.Activation
import Hypercomm.Components.Invalidation
import Hypercomm.Components.Outbox
import Hypercomm.Components.Join
import Hypercomm.Components.Lifecycle
import Hypercomm.Components.Sentinel
import Hypercomm.Components.Zip
import Hypercomm.Components.Connector
import Hypercomm.Components.Nested
import Hypercomm.Components.Dataflow
import Hypercomm.Futures.HandOff
import Hypercomm.Futures.WaitAny
import Hypercomm.Serialization.Hops
import Hypercomm.Serialization.Places
import Hypercomm.Serialization.Mirror
import Hypercomm.Serialization.Deferral
import Hypercomm.TreeBuilder.NodeTree
import Hypercomm.Utilities.FwdPool
import Hypercomm.Components.Microstack
import Hypercomm.Tasking.Payload
import Hypercomm.Serialization.Enrollment
import Hypercomm.Serialization.Ordering
import Hypercomm.TreeBuilder.Replacement
import Hypercomm.Serialization.Sourceless
import Hypercomm.Serialization.Bridge
import Hypercomm.Messaging.PortPacking
import Hypercomm.Serialization.Weight
import Hypercomm.Serialization.Plain
import Hypercomm.Serialization.Transfer
import Hypercomm.Messaging.Location
import Hypercomm.TreeBuilder.Handover
import Hypercomm.TreeBuilder.Arrival
