import Stockroom.Table
import Stockroom.Time
import Stockroom.Failure
import Stockroom.Weight
import Stockroom.Namespace
import Stockroom.Sharding
import Stockroom.Shard.Entry
import Stockroom.Shard.Basic
import Stockroom.Shard.Recency
import Stockroom.Shard.Request
import Stockroom.Cache.Metrics
import Stockroom.Cache.Loaded
import Stockroom.Flight.Registry
import Stockroom.Flight.Session
import Stockroom.Pool.Limits
import Stockroom.Time.Share
import Stockroom.Cache.Config
import Stockroom.Cache.Basic
import Stockroom.Cache.Script
import Stockroom.Cache.World
import Stockroom.Cache.Step
import Stockroom.Cache.Settle
import Stockroom.Cache.Session
import Stockroom.Pool.Sets
import Stockroom.Pool.Job
import Stockroom.Pool.Scene
import Stockroom.Pool.Play
import Stockroom.Pool.Turns
import Stockroom.Pool.Upkeep
import Stockroom.Json.Value
import Stockroom.Json.Printer
import Stockroom.Json.Reader
import Stockroom.Wire
import Stockroom.Envelope
import Stockroom.Backend.Basic
import Stockroom.Backend.Memory
import Stockroom.Backend.Remote
import Stockroom.Backend.Tiered
import Stockroom.Backend.Depot
import Stockroom.Proofs.Shard.Stamped
import Stockroom.Proofs.Shard.Represents
import Stockroom.Proofs.Shard.Refinement
import Stockroom.Flight.History
import Stockroom.Proofs.Flight.Tracks
import Stockroom.Proofs.Flight.Records
import Stockroom.Proofs.Flight.Agreement
import Stockroom.Pool.Traffic
import Stockroom.Proofs.Pool.Instructions
import Stockroom.Proofs.Pool.Effects
import Stockroom.Proofs.Pool.Turns
import Stockroom.Proofs.Pool.Custody
import Stockroom.Proofs.Pool.Capacity
import Stockroom.Cache.Moments
import Stockroom.Proofs.Cache.Passes
import Stockroom.Proofs.Cache.Change
import Stockroom.Proofs.Cache.Steps
import Stockroom.Proofs.Cache.Sound
import Stockroom.Proofs.Cache.Invocations
import Stockroom.Proofs.Cache.Awaiting
import Stockroom.Proofs.Cache.SingleFlight
import Stockroom.Proofs.Cache.Rounds
import Stockroom.Cache.Deeds
import Stockroom.Cache.Executions
import Stockroom.Proofs.Shard.Accounting
import Stockroom.Proofs.Cache.Deeds
import Stockroom.Proofs.Cache.Totals
import Stockroom.Proofs.Cache.Weights
import Stockroom.Proofs.Cache.Conservation
import Stockroom.Proofs.Cache.Budget
import Stockroom.Proofs.Cache.Executions
import Stockroom.Proofs.Cache.Publishing
import Stockroom.Pool.Runs
import Stockroom.Proofs.Pool.Members
import Stockroom.Proofs.Pool.Moves
import Stockroom.Proofs.Pool.Ownership
import Stockroom.Proofs.Pool.Destruction
import Stockroom.Proofs.Pool.Lending
import Stockroom.Proofs.Pool.Closing
import Stockroom.Proofs.Pool.Live
import Stockroom.Proofs.Json.RoundTrip
import Stockroom.Proofs.Envelope
import Stockroom.Proofs.Cache.Contents
import Stockroom.Backend.Outage
import Stockroom.Proofs.Backend.Tiers
import Stockroom.Proofs.Backend.Freshness
import Stockroom.Cache.Errands
import Stockroom.Proofs.Cache.Edits
import Stockroom.Proofs.Cache.Sharding
import Stockroom.Cache.Dampening
import Stockroom.Proofs.Cache.Lasting
import Stockroom.Proofs.Cache.Dampening
import Stockroom.Cache.Leaving
import Stockroom.Proofs.Cache.Without
import Stockroom.Proofs.Cache.Leaving
import Stockroom.Pool.Grace
import Stockroom.Proofs.Pool.Origins
import Stockroom.Proofs.Pool.Grace
import Stockroom.Backend.Desk
import Stockroom.Proofs.Backend.Reliable
import Stockroom.Cache.Saving
import Stockroom.Proofs.Cache.Saving
import Stockroom.Backend.Shared
import Stockroom.Pool.Seclusion
import Stockroom.Proofs.Backend.Isolation
import Stockroom.Proofs.Pool.Seclusion
import Stockroom.Proofs.Spaces
import Stockroom.Cache.Excerpts
import Stockroom.Proofs.Cache.Excerpts
import Stockroom.Pool.Scripting
import Stockroom.Proofs.Pool.Scripting
import Stockroom.Pool.Roster
import Stockroom.Proofs.Pool.Deeds
import Stockroom.Proofs.Pool.Roster
import Stockroom.Pool.Maintenance
import Stockroom.Proofs.Pool.Chores
import Stockroom.Proofs.Pool.Maintenance
import Stockroom.Proofs.Shard.Inclusion
import Stockroom.Cache.Unwinding
import Stockroom.Proofs.Cache.Awaited
import Stockroom.Proofs.Cache.Unwinding
import Stockroom.Cache.Refreshing
import Stockroom.Proofs.Cache.Refreshing
import Stockroom.Pool.Reclaiming
import Stockroom.Proofs.Pool.Reclaiming
import Stockroom.Pool.Leasing
import Stockroom.Proofs.Pool.Leasing
import Stockroom.Pool.Checking
import Stockroom.Proofs.Pool.Inspection
import Stockroom.Proofs.Pool.Checking
import Stockroom.Backend.Writes
import Stockroom.Proofs.Backend.Writes
import Stockroom.Proofs.Backend.Texts
import Stockroom.Pool.Emptying
import Stockroom.Proofs.Pool.Emptying
import Stockroom.Pool.Returns
import Stockroom.Proofs.Pool.Returns
import Stockroom.Proofs.Cache.Shares
import Stockroom.Shard.Coupling
import Stockroom.Proofs.Shard.Coupling
import Stockroom.Proofs.Shard.Eviction
import Stockroom.Proofs.Shard.Overflow
import Stockroom.Cache.Tallies
import Stockroom.Proofs.Cache.Deferring
import Stockroom.Proofs.Cache.Tallies
import Stockroom.Pool.Solo
import Stockroom.Proofs.Pool.Solo
import Stockroom.Proofs.Pool.Program
