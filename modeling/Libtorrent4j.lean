import Libtorrent4j.Lib.Exec
import Libtorrent4j.Lib.Doc
import Libtorrent4j.Lib.Ledger
import Libtorrent4j.Lib.Fill
import Libtorrent4j.Lib.Memory
import Libtorrent4j.Lib.Recency
import Libtorrent4j.Lib.Fairness
import Libtorrent4j.Lib.ReentrantLock
import Libtorrent4j.Saf.Path
import Libtorrent4j.Saf.Layout
import Libtorrent4j.Saf.Env
import Libtorrent4j.Saf.Descriptors
import Libtorrent4j.Saf.Transfer
import Libtorrent4j.Saf.Storage
import Libtorrent4j.Saf.Blocks
import Libtorrent4j.Saf.Operations
import Libtorrent4j.Saf.Jobs
import Libtorrent4j.Saf.Slots
import Libtorrent4j.Saf.Provider
import Libtorrent4j.Saf.Log
import Libtorrent4j.Saf.Naming
import Libtorrent4j.Saf.Confinement
import Libtorrent4j.Saf.Accounting
import Libtorrent4j.Saf.WorkQueue
import Libtorrent4j.Saf.Documents
import Libtorrent4j.Saf.Effects
import Libtorrent4j.Saf.Copies
import Libtorrent4j.Saf.Coherence
import Libtorrent4j.Saf.ByteArray
import Libtorrent4j.Saf.Hashing
import Libtorrent4j.Saf.Readable
import Libtorrent4j.Saf.Moving
import Libtorrent4j.Saf.MoveSafety
import Libtorrent4j.Saf.Adoption
import Libtorrent4j.Saf.Resuming
import Libtorrent4j.Saf.Priorities
import Libtorrent4j.Saf.PriorityChange
import Libtorrent4j.Saf.Preparing
import Libtorrent4j.Saf.Checking
import Libtorrent4j.Saf.FreshCheck
import Libtorrent4j.Saf.Owning
import Libtorrent4j.Saf.Finishing
import Libtorrent4j.Saf.Orphans
import Libtorrent4j.Saf.Preserving
import Libtorrent4j.Saf.Renaming
import Libtorrent4j.Saf.Tenants
import Libtorrent4j.Saf.Alike
import Libtorrent4j.Saf.Twins
import Libtorrent4j.Saf.Transparency
import Libtorrent4j.Saf.Interference
import Libtorrent4j.Saf.Parents
import Libtorrent4j.Saf.FullTransfer
import Libtorrent4j.Saf.Entropy
import Libtorrent4j.Saf.TornWrites
import Libtorrent4j.Saf.Tenancy
import Libtorrent4j.Saf.Acknowledged
import Libtorrent4j.Saf.Sessions
import Libtorrent4j.Saf.Threads
import Libtorrent4j.Saf.Custody
import Libtorrent4j.Saf.Interleavings
import Libtorrent4j.Saf.Liveness
import Libtorrent4j.Saf.Failures
import Libtorrent4j.Saf.Together
import Libtorrent4j.Saf.Pool
import Libtorrent4j.Saf.Outlook
import Libtorrent4j.Saf.UnknownSizes
import Libtorrent4j.Saf.OpenFiles
import Libtorrent4j.Session.Listeners
import Libtorrent4j.Session.Multicaster
import Libtorrent4j.Session.Requests
import Libtorrent4j.Session.Peers
import Libtorrent4j.Session.Entries
import Libtorrent4j.Session.Stats
import Libtorrent4j.Session.PiecesTracker
import Libtorrent4j.Session.Magnets
import Libtorrent4j.Session.Sharing
import Libtorrent4j.Session.IntSeries
import Libtorrent4j.Session.JavaStrings
import Libtorrent4j.Session.EntryMap
import Libtorrent4j.Session.EnumNet
import Libtorrent4j.Session.Lifecycle
import Libtorrent4j.Session.Shutdown
