import PagedMemory.Global
import PagedMemory.Sync.RwLock
import PagedMemory.Sync.SpinLock
import PagedMemory.Host
import PagedMemory.Proofs.Placement
import PagedMemory.Proofs.FirstFit
import PagedMemory.Proofs.Bumping
import PagedMemory.Proofs.Finding
import PagedMemory.Proofs.Entries
import PagedMemory.Proofs.Exclusion
import PagedMemory.Proofs.Memory
import PagedMemory.Proofs.Tree
import PagedMemory.Proofs.Pieces
import PagedMemory.Proofs.Fading
import PagedMemory.Proofs.Emitting
import PagedMemory.Proofs.Growth
import PagedMemory.Proofs.Walks
import PagedMemory.Proofs.Arrays
import PagedMemory.Proofs.Ledger
import PagedMemory.Proofs.Recounting
import PagedMemory.Proofs.Sections
import PagedMemory.Proofs.Undoing
import PagedMemory.Proofs.Allocation
import PagedMemory.Proofs.Caches
import PagedMemory.Proofs.Borrowing
import PagedMemory.Proofs.Census
import PagedMemory.Proofs.Clients
import PagedMemory.Proofs.Sessions
import PagedMemory.Proofs.Ownership
import PagedMemory.Proofs.Atomicity
import PagedMemory.Proofs.Lending
import PagedMemory.Proofs.Bytes
import PagedMemory.Proofs.Splitting
import PagedMemory.Proofs.Copying
import PagedMemory.Proofs.Storing
import PagedMemory.Proofs.Bytewise
import PagedMemory.Proofs.Tenancy
import PagedMemory.Proofs.Hosting
import PagedMemory.Proofs.Isolation
import PagedMemory.Proofs.Threads
import PagedMemory.Proofs.Interleaving
import PagedMemory.Proofs.Admission
import PagedMemory.Proofs.Quiet
import PagedMemory.Proofs.RoundTrip
import PagedMemory.Proofs.Building
import PagedMemory.Proofs.Freeing
import PagedMemory.Proofs.Devices
import PagedMemory.Proofs.Separation
import PagedMemory.Proofs.Agreement
import PagedMemory.Proofs.Failing
import PagedMemory.Proofs.Unmapping
import PagedMemory.Proofs.Mapping
import PagedMemory.Proofs.Extending
import PagedMemory.Proofs.Stepping
import PagedMemory.Proofs.Releases
import PagedMemory.Proofs.Slots
import PagedMemory.Proofs.Rationing
import PagedMemory.Proofs.Demand
import PagedMemory.Proofs.Provisioning
import PagedMemory.Proofs.Supplying
import PagedMemory.Proofs.Retreating
import PagedMemory.Proofs.Outlines
import PagedMemory.Proofs.Commuting
import PagedMemory.Proofs.Partition
import PagedMemory.Proofs.Encoding
import PagedMemory.Proofs.Multiples
