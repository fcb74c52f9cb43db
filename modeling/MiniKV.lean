import MiniKV.Lib.MachineWord
import MiniKV.Lib.StepRuns
import MiniKV.Lib.Partition
import MiniKV.Lib.KeyedList
import MiniKV.Lib.LinkedSegment
import MiniKV.Lib.CriticalSections
import MiniKV.Lib.Linearization
import MiniKV.Lib.Decimal
import MiniKV.Lib.Utf8
import MiniKV.Lib.Fields
import MiniKV.Lib.Loop
import MiniKV.Lib.Durations
import MiniKV.Lib.Census
import MiniKV.Lib.Slices
import MiniKV.Store.Lru
import MiniKV.Store.Shard
import MiniKV.Store.Store
import MiniKV.Protocol.Parser
import MiniKV.Protocol.Encoding
import MiniKV.Protocol.Framing
import MiniKV.Protocol.Canonical
import MiniKV.Config.Config
import MiniKV.Config.Load
import MiniKV.Config.Overrides
import MiniKV.Store.Cache
import MiniKV.Store.Effects
import MiniKV.Store.Parallel
import MiniKV.Store.Refinement
import MiniKV.Store.Simulation
import MiniKV.Store.Eviction
import MiniKV.Store.Invariant
import MiniKV.Store.Purge
import MiniKV.Store.Sweep
import MiniKV.Store.Sharding
import MiniKV.Store.Recency
import MiniKV.Store.Fate
import MiniKV.Store.Overflow
import MiniKV.Store.Accounting
import MiniKV.Store.Balance
import MiniKV.Store.Budget
import MiniKV.Store.Capacity
import MiniKV.Store.Pressure
import MiniKV.Store.Tokens
import MiniKV.Store.History
import MiniKV.Store.Failures
import MiniKV.Store.Increments
import MiniKV.Store.SweepOrder
import MiniKV.Server.Server
import MiniKV.Server.Responses
import MiniKV.Server.Session
import MiniKV.Server.Pipelining
import MiniKV.Server.AuthGate
import MiniKV.Server.Admission
import MiniKV.Server.Agreement
import MiniKV.Server.Timeouts
import MiniKV.Server.Expiry
import MiniKV.Benchmark.Clients
import MiniKV.Server.Lookups
import MiniKV.Benchmark.RoundTrip
import MiniKV.Benchmark.Runner
import MiniKV.Benchmark.Keyspace
import MiniKV.Benchmark.Schedule
import MiniKV.Benchmark.Completion
import MiniKV.Benchmark.Coverage
import MiniKV.Server.Lifecycle
import MiniKV.Server.Moves
import MiniKV.Server.Slots
import MiniKV.Server.Drain
import MiniKV.Server.WindDown
import MiniKV.Store.Concurrent
import MiniKV.Server.Conversation
import MiniKV.Server.Tallies
import MiniKV.Server.Sections
import MiniKV.Server.Transcript
import MiniKV.Process.Process
import MiniKV.Process.Guarantees
import MiniKV.Store.Freshness
import MiniKV.Process.Sweeping
import MiniKV.Store.Dictionary
import MiniKV.Lib.Binary64
import MiniKV.Benchmark.Stats
import MiniKV.Benchmark.Report
import MiniKV.Store.Snapshot
import MiniKV.Process.Doctor
import MiniKV.Process.Crash
import MiniKV.Server.Progress
