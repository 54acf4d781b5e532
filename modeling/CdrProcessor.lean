import CdrProcessor.Aggregate
import CdrProcessor.Aligned
import CdrProcessor.Answers
import CdrProcessor.Backoff
import CdrProcessor.Basic
import CdrProcessor.Batching
import CdrProcessor.Boards
import CdrProcessor.Connection
import CdrProcessor.Conserved
import CdrProcessor.Consume
import CdrProcessor.Contacts
import CdrProcessor.Counter
import CdrProcessor.Crowd
import CdrProcessor.Dates
import CdrProcessor.Decoded
import CdrProcessor.Delivered
import CdrProcessor.Deposit
import CdrProcessor.ExactlyOnce
import CdrProcessor.Fields
import CdrProcessor.FileIngest
import CdrProcessor.FileSource
import CdrProcessor.FileSteps
import CdrProcessor.FirstReading
import CdrProcessor.Followed
import CdrProcessor.Format
import CdrProcessor.Frame
import CdrProcessor.Gateway
import CdrProcessor.Generator
import CdrProcessor.HalfProcessed
import CdrProcessor.HalfWritten
import CdrProcessor.HandsOut
import CdrProcessor.Harvesters
import CdrProcessor.Header
import CdrProcessor.Json
import CdrProcessor.Landing
import CdrProcessor.LateExec
import CdrProcessor.Ledger
import CdrProcessor.Lib.Calendar
import CdrProcessor.Lib.Decimal
import CdrProcessor.Lib.Dirs
import CdrProcessor.Lib.Interleave
import CdrProcessor.Lib.JsonText
import CdrProcessor.Lib.Pages
import CdrProcessor.Lib.Patterns
import CdrProcessor.Lib.Routes
import CdrProcessor.Lib.Run
import CdrProcessor.Lib.Script
import CdrProcessor.Lib.Spread
import CdrProcessor.Lib.Table
import CdrProcessor.Lib.Traced
import CdrProcessor.Lib.Trails
import CdrProcessor.Lib.Triple
import CdrProcessor.Links
import CdrProcessor.ListingParams
import CdrProcessor.Lookup
import CdrProcessor.MarkOrder
import CdrProcessor.Missed
import CdrProcessor.NoLoss
import CdrProcessor.NoRepeat
import CdrProcessor.Owed
import CdrProcessor.OwedCounts
import CdrProcessor.OwedPairs
import CdrProcessor.Parser
import CdrProcessor.PathComplete
import CdrProcessor.PathLive
import CdrProcessor.PathRoute
import CdrProcessor.PathSearch
import CdrProcessor.PathService
import CdrProcessor.PathTotal
import CdrProcessor.PeerPages
import CdrProcessor.Places
import CdrProcessor.Polling
import CdrProcessor.PoolDrains
import CdrProcessor.PoolStuck
import CdrProcessor.Prefetch
import CdrProcessor.QueryService
import CdrProcessor.QueryStore
import CdrProcessor.QueryThreads
import CdrProcessor.Queued
import CdrProcessor.RabbitAck
import CdrProcessor.RabbitConn
import CdrProcessor.RabbitIngest
import CdrProcessor.RabbitStop
import CdrProcessor.RabbitTags
import CdrProcessor.Ranges
import CdrProcessor.Rates
import CdrProcessor.ReadBack
import CdrProcessor.Recorded
import CdrProcessor.Redis
import CdrProcessor.RedisQuery
import CdrProcessor.RedisStore
import CdrProcessor.Refused
import CdrProcessor.Replaced
import CdrProcessor.Responses
import CdrProcessor.RoundTrip
import CdrProcessor.Sampler
import CdrProcessor.Seen
import CdrProcessor.Shape
import CdrProcessor.Shared
import CdrProcessor.Sink
import CdrProcessor.Smooth
import CdrProcessor.Spool
import CdrProcessor.SpoolSteps
import CdrProcessor.Standings
import CdrProcessor.StopIngest
import CdrProcessor.StoreCalls
import CdrProcessor.Tallies
import CdrProcessor.ThreadPool
import CdrProcessor.Transaction
import CdrProcessor.Weights
