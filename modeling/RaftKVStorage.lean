import RaftKVStorage.Theory.Run
import RaftKVStorage.Theory.LeaderLogs
import RaftKVStorage.Theory.Tally
import RaftKVStorage.Cluster
import RaftKVStorage.RaftSpec
import RaftKVStorage.ClusterSpec
import RaftKVStorage.EntryIdentity
import RaftKVStorage.Safety
import RaftKVStorage.SentEntries
import RaftKVStorage.Theory.WrapInt
import RaftKVStorage.RaftInt
import RaftKVStorage.RaftIntSpec
import RaftKVStorage.LeaderRuns
import RaftKVStorage.CommitMissed
import RaftKVStorage.NextIndexBound
import RaftKVStorage.FollowerLog
import RaftKVStorage.LogRepair
import RaftKVStorage.AckProgress
import RaftKVStorage.KvSkipList
import RaftKVStorage.Theory.Codec
import RaftKVStorage.Theory.Delivery
import RaftKVStorage.Archive
import RaftKVStorage.SkipListCalls
import RaftKVStorage.SkipListShape
import RaftKVStorage.SkipSet
import RaftKVStorage.KvServer
import RaftKVStorage.Replica
import RaftKVStorage.Server
import RaftKVStorage.ApplyOrder
import RaftKVStorage.AppliedCommands
import RaftKVStorage.PutWaiters
import RaftKVStorage.ServerInt
import RaftKVStorage.Durability
import RaftKVStorage.PersisterFiles
import RaftKVStorage.Recovery
import RaftKVStorage.ReadBarrier
import RaftKVStorage.Theory.Varint
import RaftKVStorage.RpcProvider
import RaftKVStorage.Theory.ProtoWire
import RaftKVStorage.RpcReply
import RaftKVStorage.RequestIds
import RaftKVStorage.ExactlyOnce
import RaftKVStorage.CompletedWrites
import RaftKVStorage.RpcChannel
import RaftKVStorage.RpcResponse
import RaftKVStorage.Theory.LineText
import RaftKVStorage.MprpcConfig
import RaftKVStorage.ConfigLine
import RaftKVStorage.ConfigFile
import RaftKVStorage.Theory.OrderedSet
import RaftKVStorage.TimerDeadline
import RaftKVStorage.TimerExpiry
import RaftKVStorage.PendingEvents
import RaftKVStorage.AddEvent
import RaftKVStorage.IoTimeout
import RaftKVStorage.TaskLedger
import RaftKVStorage.Theory.Answers
import RaftKVStorage.DescriptorSpec
import RaftKVStorage.Theory.Monitor
import RaftKVStorage.ThreadPool
import RaftKVStorage.SafeQueue
import RaftKVStorage.Theory.ProtoMessage
import RaftKVStorage.Messages
import RaftKVStorage.RemoteCalls
import RaftKVStorage.ClusterConfig
import RaftKVStorage.Shutdown
import RaftKVStorage.Availability
import RaftKVStorage.Mending
import RaftKVStorage.Progress
