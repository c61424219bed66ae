import EVdeSwitch.Lib.Machine
import EVdeSwitch.Lib.History
import EVdeSwitch.Lib.Stoppable
import EVdeSwitch.Lib.Parties
import EVdeSwitch.Lib.Circular
import EVdeSwitch.Lib.WorkQueues
import EVdeSwitch.Lib.TaggedService
import EVdeSwitch.Lib.ServiceOrder
import EVdeSwitch.Lib.Custody
import EVdeSwitch.Lib.Chain
import EVdeSwitch.Lib.TimedMap
import EVdeSwitch.Lib.LinkedList
import EVdeSwitch.Lib.BinaryTrie
import EVdeSwitch.Lib.Bridge
import EVdeSwitch.Lib.Batch
import EVdeSwitch.Lib.Memory
import EVdeSwitch.Lib.BitFold
import EVdeSwitch.Lib.Decimal
import EVdeSwitch.Utils.Word64
import EVdeSwitch.Utils.Logging
import EVdeSwitch.Utils.MemoryMgmt
import EVdeSwitch.Config.Opts
import EVdeSwitch.Config.Agreement
import EVdeSwitch.Config.OptString
import EVdeSwitch.Utils.RingBuffer
import EVdeSwitch.Utils.Spsc
import EVdeSwitch.Utils.ThreadPool
import EVdeSwitch.Utils.ThreadPoolCreate
import EVdeSwitch.Utils.ThreadPoolRefinement
import EVdeSwitch.Utils.ThreadPoolProgress
import EVdeSwitch.Utils.ThreadPoolService
import EVdeSwitch.Utils.ThreadPoolPushes
import EVdeSwitch.Utils.ThreadPoolShutdown
import EVdeSwitch.ControlPlane.HashTable
import EVdeSwitch.ControlPlane.MacTableRefinement
import EVdeSwitch.ControlPlane.SerialInserts
import EVdeSwitch.ControlPlane.ConcurrentInserts
import EVdeSwitch.ControlPlane.Serialisation
import EVdeSwitch.ControlPlane.ConcurrentLookups
import EVdeSwitch.ControlPlane.LookupProgress
import EVdeSwitch.ControlPlane.MacTableHeap
import EVdeSwitch.Io.FdManager
import EVdeSwitch.Io.FdTableMap
import EVdeSwitch.Io.EventLoops
import EVdeSwitch.Io.Polling
import EVdeSwitch.Io.Port
import EVdeSwitch.Io.PortTable
import EVdeSwitch.Io.PortState
import EVdeSwitch.Io.PortManager
import EVdeSwitch.Io.SocketNames
import EVdeSwitch.Io.EndpointHeap
import EVdeSwitch.Io.PortRemoval
import EVdeSwitch.ControlPlane.Requests
import EVdeSwitch.ControlPlane.RequestBytes
import EVdeSwitch.Message.ControlPipe
import EVdeSwitch.Message.Framing
import EVdeSwitch.ControlPlane.PortRequest
import EVdeSwitch.DataPlane.Packet
import EVdeSwitch.DataPlane.Toeplitz
import EVdeSwitch.DataPlane.ToeplitzWindows
import EVdeSwitch.DataPlane.FlowTable
import EVdeSwitch.DataPlane.FlowTableMap
import EVdeSwitch.DataPlane.FlowTableRuns
import EVdeSwitch.DataPlane.FlowTableSearch
import EVdeSwitch.DataPlane.FlowTableFaults
import EVdeSwitch.DataPlane.FlowTableOrder
import EVdeSwitch.DataPlane.FlowTableLive
import EVdeSwitch.DataPlane.FlowKeyReads
import EVdeSwitch.DataPlane.ForwardingEngine
import EVdeSwitch.DataPlane.Learning
import EVdeSwitch.DataPlane.Delivery
import EVdeSwitch.DataPlane.Engine
import EVdeSwitch.DataPlane.EngineInit
import EVdeSwitch.DataPlane.ConnectionHash
import EVdeSwitch.DataPlane.Reception
import EVdeSwitch.DataPlane.TableHistory
import EVdeSwitch.DataPlane.ConnectionOrder
import EVdeSwitch.DataPlane.Attribution
import EVdeSwitch.DataPlane.Misattribution
import EVdeSwitch.DataPlane.Fidelity
import EVdeSwitch.DataPlane.BufferLife
import EVdeSwitch.Process.Switch
import EVdeSwitch.Process.Faults
import EVdeSwitch.Process.Survival
import EVdeSwitch.Process.Moves
import EVdeSwitch.Process.Composition
import EVdeSwitch.Process.Ports
import EVdeSwitch.Process.RefusedPorts
import EVdeSwitch.Process.PortConsistency
import EVdeSwitch.Process.ClientPorts
import EVdeSwitch.Process.Admission
import EVdeSwitch.Process.PortRemoval
import EVdeSwitch.Process.Delivery
import EVdeSwitch.DataPlane.FlowKeyReads
import EVdeSwitch.ControlPlane.UninterruptedCalls
import EVdeSwitch.DataPlane.ConcurrentForwarding
import EVdeSwitch.DataPlane.UninterruptedPackets
import EVdeSwitch.Lib.PathWalk
import EVdeSwitch.Utils.CanonicalNames
import EVdeSwitch.Utils.PathResolution
import EVdeSwitch.Io.ConcurrentFds
import EVdeSwitch.ControlPlane.Startup
import EVdeSwitch.Config.CJsonStrings
import EVdeSwitch.Config.JsonGrammar
import EVdeSwitch.Config.CJsonLiterals
import EVdeSwitch.Config.CJsonReading
import EVdeSwitch.Config.CJsonText
import EVdeSwitch.Config.ConfigFiles
import EVdeSwitch.Process.MainThread
