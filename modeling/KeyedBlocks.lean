import KeyedBlocks.FileTree
import KeyedBlocks.Blocks.Database
import KeyedBlocks.Main
import KeyedBlocks.Json
import KeyedBlocks.Proofs.Cache.Flights
import KeyedBlocks.Proofs.Traffic.Turns
import KeyedBlocks.Proofs.Traffic.Register
import KeyedBlocks.Proofs.Traffic.History
import KeyedBlocks.Proofs.Traffic.SingleFlight
import KeyedBlocks.Proofs.Cache.Entries
import KeyedBlocks.Proofs.Traffic.Provenance
import KeyedBlocks.Proofs.Traffic.Agreement
import KeyedBlocks.Proofs.Shared.Site
import KeyedBlocks.Proofs.Shared.Trace
import KeyedBlocks.Proofs.Shared.Readings
import KeyedBlocks.Proofs.Shared.Removal
import KeyedBlocks.Proofs.Shared.Coherence
import KeyedBlocks.Proofs.Address.Injective
import KeyedBlocks.Proofs.Address.CollisionFree
import KeyedBlocks.Proofs.Keys.Parts
import KeyedBlocks.Proofs.Keys.Layouts
import KeyedBlocks.Proofs.Keys.Clear
import KeyedBlocks.Proofs.Cache.Rows
import KeyedBlocks.Proofs.Cache.Accesses
import KeyedBlocks.Proofs.Traffic.Represented
import KeyedBlocks.Proofs.Cache.Renamed
import KeyedBlocks.Proofs.Backends.FlatMap
import KeyedBlocks.Proofs.Blocks.Faults
import KeyedBlocks.Proofs.Blocks.Flush
import KeyedBlocks.Proofs.Blocks.Retry
import KeyedBlocks.Proofs.Backends.FaultFree
import KeyedBlocks.Proofs.Cache.OneGet
import KeyedBlocks.Proofs.Recency.Mapped
import KeyedBlocks.Proofs.Sessions.Facade
import KeyedBlocks.Proofs.Sessions.Flat
import KeyedBlocks.Proofs.Sessions.Refinement
import KeyedBlocks.Proofs.Sessions.Indistinguishable
import KeyedBlocks.Proofs.Shared.Alone
import KeyedBlocks.Proofs.Traffic.Origin
import KeyedBlocks.Proofs.Traffic.Freshness
import KeyedBlocks.Proofs.Relational.Ascending
import KeyedBlocks.Proofs.Relational.Paging
import KeyedBlocks.Proofs.Relational.Iteration
import KeyedBlocks.Proofs.Sessions.Deeds
import KeyedBlocks.Proofs.Relational.Records
import KeyedBlocks.Proofs.Recency.Entries
import KeyedBlocks.Proofs.Recency.Ordered
import KeyedBlocks.Proofs.Recency.Recent
import KeyedBlocks.Proofs.Relational.Bookkeeping
import KeyedBlocks.Proofs.Relational.Transaction
import KeyedBlocks.Proofs.Relational.AllOrNothing
import KeyedBlocks.Proofs.Sessions.Transparent
import KeyedBlocks.Proofs.Batches.Contents
import KeyedBlocks.Proofs.Batches.History
import KeyedBlocks.Proofs.Batches.Written
import KeyedBlocks.Proofs.Relational.Index
import KeyedBlocks.Proofs.Relational.Walk
import KeyedBlocks.Proofs.Relational.Values
import KeyedBlocks.Proofs.Batches.Piecemeal
import KeyedBlocks.Proofs.Batches.Replay
import KeyedBlocks.Proofs.Recency.Unreplaced
import KeyedBlocks.Proofs.Batches.Accepted
import KeyedBlocks.Proofs.Backends.Cells
import KeyedBlocks.Proofs.Batches.Direct
import KeyedBlocks.Proofs.Text.Hexadecimal
import KeyedBlocks.Proofs.Command.HexArguments
import KeyedBlocks.Proofs.Command.Opened
import KeyedBlocks.Proofs.Command.Carried
import KeyedBlocks.Proofs.Command.OrderedMap
import KeyedBlocks.Proofs.Cache.LeastRecent
import KeyedBlocks.Proofs.Traffic.Accounted
import KeyedBlocks.Proofs.Relational.Calls
import KeyedBlocks.Proofs.Batches.Warnings
import KeyedBlocks.Proofs.Recency.BoundedList
import KeyedBlocks.Proofs.Blocks.BatchAdds
import KeyedBlocks.Proofs.Keys.Leftmost
import KeyedBlocks.Proofs.Keys.DigestTexts
