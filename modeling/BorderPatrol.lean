import BorderPatrol.Foundations.Memory
import BorderPatrol.Foundations.Endian
import BorderPatrol.Foundations.CString
import BorderPatrol.Foundations.Post
import BorderPatrol.Foundations.Resumable
import BorderPatrol.Foundations.Runs
import BorderPatrol.Foundations.Holes
import BorderPatrol.Foundations.Units
import BorderPatrol.Basic
import BorderPatrol.Logd.Fmt
import BorderPatrol.Logd.Binlog
import BorderPatrol.Logd.Common
import BorderPatrol.Logd.RoundTrip
import BorderPatrol.Foundations.SelfDelimiting
import BorderPatrol.Foundations.Interleaving
import BorderPatrol.Logd.Relay
import BorderPatrol.Logd.Draining
import BorderPatrol.Logd.Clients
import BorderPatrol.Logd.Survival
import BorderPatrol.Logd.ShortWrites
import BorderPatrol.Logd.Offsets
import BorderPatrol.Logd.Writers
import BorderPatrol.Logd.Forks
import BorderPatrol.Logd.Threads
import BorderPatrol.Logd.Hosts
import BorderPatrol.Trace.Vfd
import BorderPatrol.Trace.Select
import BorderPatrol.Trace.Readiness
import BorderPatrol.Trace.Flow
import BorderPatrol.Trace.ReadPath
import BorderPatrol.Trace.Receive
import BorderPatrol.Trace.WritePath
import BorderPatrol.Trace.Parsing
import BorderPatrol.Trace.Protocol.Psql
import BorderPatrol.Trace.Protocol.Mysql
import BorderPatrol.Trace.Capacity
import BorderPatrol.Trace.Numbering
import BorderPatrol.Trace.PsqlFraming
import BorderPatrol.Trace.Protocol.Fcgi
import BorderPatrol.Trace.Protocol.Https
import BorderPatrol.Trace.Protocol.Others
import BorderPatrol.Trace.HttpsReads
import BorderPatrol.Trace.FcgiFraming
import BorderPatrol.Trace.FcgiCopies
import BorderPatrol.Trace.Contract
import BorderPatrol.Trace.Transparency
import BorderPatrol.Foundations.Hashtbl
import BorderPatrol.Agg.Events
import BorderPatrol.Agg.Join
import BorderPatrol.Agg.Attribution
import BorderPatrol.Agg.Provenance
import BorderPatrol.Trace.Getservice
import BorderPatrol.Trace.Writes
import BorderPatrol.Trace.HttpText
import BorderPatrol.Trace.HttpsStatus
import BorderPatrol.Trace.HttpsWrites
import BorderPatrol.Trace.LogSizes
import BorderPatrol.Trace.HttpsRequests
import BorderPatrol.Trace.MysqlFraming
import BorderPatrol.Trace.Sockaddr
import BorderPatrol.Trace.Rendezvous
import BorderPatrol.Foundations.OrderBy
import BorderPatrol.Foundations.CopyText
import BorderPatrol.Agg.Parse
import BorderPatrol.Agg.Db
import BorderPatrol.Agg.RoundTrip
import BorderPatrol.Agg.Ordering
import BorderPatrol.Agg.Renaming
import BorderPatrol.Agg.Frame
import BorderPatrol.Agg.Meeting
import BorderPatrol.Agg.Designations
import BorderPatrol.Trace.Sending
import BorderPatrol.Trace.Overrun
import BorderPatrol.Trace.Sockets
import BorderPatrol.Trace.Duplicates
import BorderPatrol.Trace.Lifecycle
import BorderPatrol.Agg.Classification
import BorderPatrol.Agg.Inheritance
import BorderPatrol.Agg.Freshness
import BorderPatrol.Agg.Messages
import BorderPatrol.Trace.Vectors
import BorderPatrol.Trace.Reported
import BorderPatrol.Trace.Polling
import BorderPatrol.Trace.Peeking
import BorderPatrol.Trace.Indices
import BorderPatrol.Foundations.Environ
import BorderPatrol.Trace.Exec
import BorderPatrol.Foundations.GroupBy
import BorderPatrol.Vis.Ranges
import BorderPatrol.Pfdura.TrackPids
import BorderPatrol.Pfdura.Monitor
import BorderPatrol.Foundations.Lineage
import BorderPatrol.Agg.Paths
import BorderPatrol.Foundations.Labelling
import BorderPatrol.Agg.Tracking
import BorderPatrol.Foundations.Simulation
import BorderPatrol.Logd.MainLoop
import BorderPatrol.Logd.Delivery
import BorderPatrol.Agg.Conversations
import BorderPatrol.Trace.Duplex
import BorderPatrol.Agg.Sessions
import BorderPatrol.Agg.Traced
import BorderPatrol.Trace.Identify
import BorderPatrol.Agg.Established
import BorderPatrol.Agg.Loading
import BorderPatrol.Agg.Descent
