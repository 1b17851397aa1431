import QuarkDB.Bytes
import QuarkDB.KeyLocators
import QuarkDB.ReverseLocator
import QuarkDB.RaftCommon
import QuarkDB.RaftJournal
import QuarkDB.JournalLaws
import QuarkDB.RaftState
import QuarkDB.RaftDispatcher
import QuarkDB.RaftVotes
import QuarkDB.RaftTalker
import QuarkDB.Payloads
import QuarkDB.FollowerLog
import QuarkDB.RaftReplicator
import QuarkDB.RaftCluster
import QuarkDB.ClientWrites
import QuarkDB.Commands
import QuarkDB.Endian
import QuarkDB.Outcome
import QuarkDB.Tally
import QuarkDB.Transaction
import QuarkDB.WriteTracker
import QuarkDB.StateMachine
import QuarkDB.Dispatcher
import QuarkDB.Contents
import QuarkDB.Operations
import QuarkDB.PlainCommands
import QuarkDB.IndexedCommands
import QuarkDB.Counters
import QuarkDB.Batches
import QuarkDB.Deques
import QuarkDB.LocalityHashes
import QuarkDB.Frames
import QuarkDB.Leases
import QuarkDB.LeaseExclusion
import QuarkDB.Versions
import QuarkDB.Lockstep
import QuarkDB.Twins
import QuarkDB.Restarts
import QuarkDB.Replicas
import QuarkDB.RedisParser
import QuarkDB.RequestStream
import QuarkDB.Resumption
import QuarkDB.Chunking
import QuarkDB.RequestGrammar
import QuarkDB.JournalMembership
import QuarkDB.Members
import QuarkDB.Paging
import QuarkDB.Iterators
import QuarkDB.Scans
import QuarkDB.LocalityScans
import QuarkDB.ErrorReplies
import QuarkDB.RaftTrimmer
import QuarkDB.StagedIteration
import QuarkDB.Publisher
import QuarkDB.SubscriptionCounts
import QuarkDB.Delivery
import QuarkDB.SingleDeletes
import QuarkDB.Bulkload
import QuarkDB.Grouping
import QuarkDB.Keeping
import QuarkDB.Rebuilding
import QuarkDB.Straddling
import QuarkDB.ScanCommands
import QuarkDB.DequeScans
import QuarkDB.Cloning
import QuarkDB.Resets
import QuarkDB.Increments
import QuarkDB.Quorums
import QuarkDB.JournalScans
import QuarkDB.RaftDirector
import QuarkDB.FullIteration
import QuarkDB.PinnedReads
import QuarkDB.ScanArguments
import QuarkDB.PrefixExtraction
import QuarkDB.IterationOrder
import QuarkDB.Reads
import QuarkDB.LocatorBuffers
import QuarkDB.PayloadReads
import QuarkDB.Consensus
import QuarkDB.ClusterSteps
import QuarkDB.ElectionSafety
import QuarkDB.LogMatching
import QuarkDB.MessageSafety
import QuarkDB.Pipelining
import QuarkDB.Histories
import QuarkDB.Authentication
