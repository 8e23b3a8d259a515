import Messq.Errors
import Messq.Json
import Messq.Header
import Messq.Queue.Config
import Messq.Queue.Token
import Messq.Queue.Settle
import Messq.Queue.Retention
import Messq.Queue.Sweep
import Messq.Queue.Dead
import Messq.Store.Schema
import Messq.Lib.Transaction
import Messq.Queue.Publish
import Messq.Store.Publish
import Messq.Store.Streams
import Messq.Store.Consumer
import Messq.Store.Fetch
import Messq.Store.Dead
import Messq.Store.Settle
import Messq.Store.Seek
import Messq.Store.Recovery
import Messq.Broker
import Messq.Effect.Move
import Messq.Lib.Ledger
import Messq.Effect.Background
import Messq.Effect.Settle
import Messq.Effect.Janitor
import Messq.Effect.Streams
import Messq.Effect.Consumer
import Messq.Effect.Fetch
import Messq.Effect.Publish
import Messq.Effect.Purge
import Messq.Effect.Request
import Messq.Effect.Record
import Messq.Refinement
import Messq.Invariant
import Messq.Run
import Messq.Property.Generation
import Messq.Property.Fence
import Messq.Property.Settle
import Messq.Property.Limit
import Messq.Property.Retain
import Messq.Property.Window
import Messq.Property.Loss
import Messq.Backed
import Messq.Property.Order
import Messq.Property.Bound
import Messq.Effect.Act
import Messq.Lib.Counter
import Messq.Property.Sequence
import Messq.Property.Chronicle
import Messq.Property.Front
import Messq.Verify.Publish
import Messq.Property.PublishCheck
import Messq.Verify.Dlq
import Messq.Property.DlqCheck
import Messq.Property.Tokens
import Messq.Lib.Tally
import Messq.Property.Stats
import Messq.Property.Reap
import Messq.Property.Retention
import Messq.Property.Start
import Messq.Effect.Journal
import Messq.Property.Stamp
import Messq.Property.Redelivery
import Messq.Property.Dead
import Messq.Property.Honest
import Messq.Property.Batch
import Messq.Property.Answer
import Messq.Writer.Queue
import Messq.Property.Strand
import Messq.Property.Timeout
import Messq.Api.Settle
import Messq.Property.Repeat
import Messq.Property.Group
import Messq.Property.Fifo
import Messq.Api.Waiters
import Messq.Property.Waiters
import Messq.Property.Budget
import Messq.Api.Consumers
import Messq.Property.Terms
import Messq.Property.Upsert
import Messq.Property.Durations
import Messq.Property.Backoff
import Messq.Property.Sweep
import Messq.Property.Fetch
import Messq.Property.Hold
import Messq.Property.Seek
import Messq.Property.Purge
import Messq.Property.Eviction
import Messq.Lib.Paging
import Messq.Store.Reads
import Messq.Property.Backlog
import Messq.Property.Pending
import Messq.Property.Events
import Messq.Property.Listing
import Messq.Property.Names
import Messq.Utf8
import Messq.Property.Grammar
import Messq.Property.Matcher
import Messq.Id
import Messq.Property.Reason
import Messq.Property.Headers
import Messq.Property.CopyHeaders
import Messq.Property.AtRisk
import Messq.Property.Drain
import Messq.Property.Peek
import Messq.Hex
import Messq.Trace
import Messq.Lib.Rank
import Messq.Property.Trim
import Messq.Janitor
import Messq.Property.Housekeeping
import Messq.Reload
import Messq.Exec.Child
import Messq.Exec.Words
import Messq.Client.Keeper
