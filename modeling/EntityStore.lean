import EntityStore.Text.Hex
import EntityStore.Text.Blank
import EntityStore.Text.Lowercase
import EntityStore.Text.Numeral
import EntityStore.Error
import EntityStore.Identifier
import EntityStore.Item
import EntityStore.Fifo
import EntityStore.BitSet
import EntityStore.Chunk
import EntityStore.Event
import EntityStore.Tenant.Basic
import EntityStore.Tenant.Allocation
import EntityStore.Tenant.Release
import EntityStore.Tenant.Pass
import EntityStore.Tenant.Batch
import EntityStore.Pool
import EntityStore.Sort
import EntityStore.Hash.Sip
import EntityStore.Hash.Canonical
import EntityStore.Key
import EntityStore.KeyMap
import EntityStore.CodeTable
import EntityStore.IntMap
import EntityStore.ClassIndex
import EntityStore.Layout
import EntityStore.Config.Name
import EntityStore.Config.Basic
import EntityStore.Repository
import EntityStore.Workload.Memory
import EntityStore.Workload.Components
import EntityStore.Workload.Churn
import EntityStore.Workload.Workers
import EntityStore.Proofs.Chunk.Invariant
import EntityStore.Proofs.Chunk.Operations
import EntityStore.Proofs.Tenant.Access
import EntityStore.Proofs.Tenant.Chain
import EntityStore.Proofs.Tenant.Invariant
import EntityStore.Proofs.Tenant.Allocation
import EntityStore.Proofs.Tenant.Release
import EntityStore.Proofs.Identifier
import EntityStore.Proofs.Item
import EntityStore.Proofs.Tenant.Ledger
import EntityStore.Proofs.Tenant.Run
import EntityStore.Proofs.Tenant.Traversal
import EntityStore.Proofs.Tenant.Closing
import EntityStore.Proofs.Tenant.Placement
import EntityStore.Proofs.Tenant.Pass
import EntityStore.Proofs.Tenant.Scan
import EntityStore.Proofs.Tenant.Turnover
import EntityStore.Proofs.Tenant.Supply
import EntityStore.Proofs.Tenant.Census
import EntityStore.Proofs.Tenant.Capacity
import EntityStore.Proofs.Tenant.Freeing
import EntityStore.Proofs.Sweep
import EntityStore.Proofs.Tenant.Listing
import EntityStore.Proofs.Tenant.RollCall
import EntityStore.Proofs.Tenant.Accounting
import EntityStore.Proofs.CanonicalHash
import EntityStore.Proofs.ClassIndex.Numbering
import EntityStore.Proofs.ClassIndex.Invariant
import EntityStore.Proofs.ClassIndex.SetHash
import EntityStore.Proofs.ClassIndex.Run
import EntityStore.Proofs.IntMap
import EntityStore.Proofs.ClassIndex.Extension
import EntityStore.Proofs.ClassIndex.Canonical
import EntityStore.Proofs.Repository.Invariant
import EntityStore.Proofs.Layout.Create
import EntityStore.Proofs.ClassIndex.Rejection
import EntityStore.Proofs.ClassIndex.Warning
import EntityStore.Proofs.ClassIndex.Collision
import EntityStore.Proofs.Repository.Walk
import EntityStore.Proofs.Repository.Run
import EntityStore.Proofs.Registry.Change
import EntityStore.Proofs.Registry.Run
import EntityStore.Proofs.Registry.Tracking
import EntityStore.Proofs.Registry.Closing
import EntityStore.Proofs.Registry.Ownership
import EntityStore.Proofs.Registry.Headcount
import EntityStore.Proofs.Workload.Churn
import EntityStore.Proofs.Repository.Accounting
import EntityStore.Proofs.Bounds.Chunk
import EntityStore.Proofs.Bounds.Tenant
import EntityStore.Proofs.Bounds.ClassIndex
import EntityStore.Proofs.Bounds.Run
import EntityStore.Proofs.Layout.Canonical
import EntityStore.Proofs.Layout.Sorting
import EntityStore.Proofs.Tenant.Handout
import EntityStore.Proofs.Tenant.Queue
import EntityStore.Proofs.IntMap.Refinement
import EntityStore.Proofs.Identifier.Packing
import EntityStore.Proofs.Chunk.Partition
import EntityStore.Proofs.Text.Numeral
import EntityStore.Proofs.Config.Resolution
import EntityStore.Proofs.Config.Name
import EntityStore.Proofs.Config.Spelling
import EntityStore.Proofs.Config.Normalization
import EntityStore.Proofs.Config.Variables
import EntityStore.Proofs.Config.Summary
