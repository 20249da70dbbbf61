import KvJet.Resp.RoundTrip
import KvJet.Store.Snapshot
import KvJet.Raft.Codec
import KvJet.Raft.Safety
import KvJet.Server.Replay
import KvJet.Raft.Text
import KvJet.Raft.Disk
import KvJet.Raft.Threads
import KvJet.Raft.LogFile
import KvJet.Server.Command
import KvJet.Server.Acknowledge
import KvJet.Store.Agreement
import KvJet.Server.Torn
import KvJet.Server.WriteOrder
import KvJet.Server.Reads
import KvJet.Server.Dispatch
import KvJet.Server.Pool
import KvJet.Server.Crash
import KvJet.Server.Ring
import KvJet.Server.Connections
import KvJet.Lib.Ballot
import KvJet.Raft.Votes
import KvJet.Raft.Lines
import KvJet.Raft.Restart
import KvJet.Server.Gossip
import KvJet.Server.Network
import KvJet.Server.Membership
import KvJet.Lib.Orbit
import KvJet.Server.KeyHash
import KvJet.Client.Refresh
import KvJet.Server.Join
import KvJet.Server.EventLoop
import KvJet.Lib.Locks
import KvJet.Server.Locks
import KvJet.Raft.Solo
import KvJet.Raft.CatchUp
import KvJet.Raft.RequestCodec
import KvJet.Raft.CommittedPrefix
import KvJet.Raft.Trust
import KvJet.Resp.Numerals
import KvJet.Resp.Tokens
import KvJet.Resp.Acceptance
import KvJet.Raft.Bounds
import KvJet.Raft.Malformed
import KvJet.Server.Applied
import KvJet.Server.Rebuild
import KvJet.Server.NetworkCodec
import KvJet.Lib.Recency
import KvJet.Store.LRUOrder
import KvJet.Store.HalfDone
import KvJet.Store.Usable
import KvJet.Lib.FirstMet
import KvJet.Server.Replicas
import KvJet.Server.Leave
import KvJet.Server.Timeouts
import KvJet.Server.Groups
import KvJet.Server.RingRuns
import KvJet.Server.Daemon
import KvJet.Server.Hosted
import KvJet.Server.Sound
import KvJet.Server.Safe
import KvJet.Server.Failing
import KvJet.Server.LogLines
import KvJet.Server.Sender
import KvJet.Server.ThreadPool
import KvJet.Server.Threaded
import KvJet.Raft.Leaders
import KvJet.Raft.Heartbeats
import KvJet.Server.Reach
import KvJet.Raft.Progress
import KvJet.Server.Handover
