import CliMessaging.Library.Transition
import CliMessaging.Library.Heap
import CliMessaging.Library.Index
import CliMessaging.Library.Linked
import CliMessaging.Library.Footprint
import CliMessaging.Library.Ownership
import CliMessaging.Library.Heartbeat
import CliMessaging.Library.Flood
import CliMessaging.Library.CString
import CliMessaging.Library.Bytes
import CliMessaging.Library.Horner
import CliMessaging.Library.Lockstep
import CliMessaging.Library.CFunctions
import CliMessaging.Library.PubSub
import CliMessaging.Model.Address
import CliMessaging.Model.Proto
import CliMessaging.Model.Wire
import CliMessaging.Model.Standalone.State
import CliMessaging.Model.Standalone.Handlers
import CliMessaging.Model.Standalone.Server
import CliMessaging.Model.Standalone.HashTable
import CliMessaging.Model.Standalone.LinkedList
import CliMessaging.Model.Standalone.HashMap
import CliMessaging.Model.Standalone.Memory
import CliMessaging.Model.Standalone.MemoryHandlers
import CliMessaging.Model.Standalone.Keys
import CliMessaging.Model.Client.Messages
import CliMessaging.Model.Client.Commands
import CliMessaging.Model.Client.Accesses
import CliMessaging.Model.Distributed.State
import CliMessaging.Model.Distributed.Handlers
import CliMessaging.Model.Distributed.Server
import CliMessaging.Model.Distributed.Network
import CliMessaging.Model.Distributed.Receive
import CliMessaging.Model.Distributed.Wire
import CliMessaging.Model.Distributed.TimedNetwork
import CliMessaging.Model.Session
import CliMessaging.Verification.Standalone.UserTable
import CliMessaging.Verification.Standalone.ChannelTable
import CliMessaging.Verification.Standalone.Requests
import CliMessaging.Verification.Standalone.Sessions
import CliMessaging.Verification.Standalone.Subscriptions
import CliMessaging.Verification.Standalone.SayFanOut
import CliMessaging.Verification.Standalone.Traversals
import CliMessaging.Verification.Standalone.HashIndex
import CliMessaging.Verification.Standalone.ListCells
import CliMessaging.Verification.Standalone.ListElements
import CliMessaging.Verification.Standalone.ListPurge
import CliMessaging.Verification.Standalone.ListRuns
import CliMessaging.Verification.Standalone.HashCells
import CliMessaging.Verification.Standalone.HashResize
import CliMessaging.Verification.Standalone.HashEntries
import CliMessaging.Verification.Standalone.HashPurge
import CliMessaging.Verification.Standalone.HashRuns
import CliMessaging.Verification.Standalone.HashLoad
import CliMessaging.Verification.Standalone.MemoryLists
import CliMessaging.Verification.Standalone.MemoryLayout
import CliMessaging.Verification.Standalone.MemoryUsers
import CliMessaging.Verification.Standalone.MemoryChannels
import CliMessaging.Verification.Standalone.MemoryHandlers
import CliMessaging.Verification.Standalone.MemoryRuns
import CliMessaging.Verification.Standalone.MemoryRelease
import CliMessaging.Verification.Standalone.Datagrams
import CliMessaging.Verification.Standalone.Keys
import CliMessaging.Verification.Standalone.Listings
import CliMessaging.Verification.Standalone.InactivityScan
import CliMessaging.Verification.Standalone.Service
import CliMessaging.Verification.Standalone.SessionTimes
import CliMessaging.Verification.Standalone.MemorySays
import CliMessaging.Verification.Client.Receiving
import CliMessaging.Verification.Client.ListReplies
import CliMessaging.Verification.Client.Typing
import CliMessaging.Verification.Client.Destination
import CliMessaging.Verification.Client.Accesses
import CliMessaging.Verification.Client.Bounds
import CliMessaging.Verification.Client.Activity
import CliMessaging.Verification.Distributed.ChannelTable
import CliMessaging.Verification.Distributed.UserSet
import CliMessaging.Verification.Distributed.ServerSet
import CliMessaging.Verification.Distributed.Operations
import CliMessaging.Verification.Distributed.Requests
import CliMessaging.Verification.Distributed.Effects
import CliMessaging.Verification.Distributed.Invariant
import CliMessaging.Verification.Distributed.Replay
import CliMessaging.Verification.Distributed.Topologies
import CliMessaging.Verification.Distributed.ErrorPaths
import CliMessaging.Verification.Distributed.Members
import CliMessaging.Verification.Distributed.NetInvariant
import CliMessaging.Verification.Distributed.Deliveries
import CliMessaging.Verification.Distributed.JoinFlood
import CliMessaging.Verification.Distributed.Routes
import CliMessaging.Verification.Distributed.SayFlood
import CliMessaging.Verification.Distributed.AtMostOnce
import CliMessaging.Verification.Distributed.TreeFlood
import CliMessaging.Verification.Distributed.Strangers
import CliMessaging.Verification.Distributed.UserDirectory
import CliMessaging.Verification.Distributed.ChannelEffects
import CliMessaging.Verification.Distributed.ChannelUsers
import CliMessaging.Verification.Distributed.RouteTimes
import CliMessaging.Verification.Distributed.Pruning
import CliMessaging.Verification.Distributed.Histories
import CliMessaging.Verification.Distributed.Authorship
import CliMessaging.Verification.Distributed.Solicitation
import CliMessaging.Verification.Distributed.WireMessages
import CliMessaging.Verification.Distributed.WireReplay
import CliMessaging.Verification.Distributed.WireRuns
import CliMessaging.Verification.Distributed.UserTimes
import CliMessaging.Verification.Distributed.Hearing
import CliMessaging.Verification.Distributed.TimedRuns
import CliMessaging.Verification.Distributed.RouteLife
import CliMessaging.Verification.Distributed.RouteDecay
import CliMessaging.Verification.Membership
import CliMessaging.Verification.Chat
import CliMessaging.Verification.Reception
import CliMessaging.Verification.KeepAlive
import CliMessaging.Verification.Terminal
