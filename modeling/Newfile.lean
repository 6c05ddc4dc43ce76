import Newfile.Optparse
import Newfile.Permute
import Newfile.Scan
import Newfile.Program
import Newfile.Simulation
import Newfile.Posix
import Newfile.Process
import Newfile.Pending
import Newfile.Fastio
import Newfile.Template
import Newfile.Flush
import Newfile.Place
import Newfile.Backup
import Newfile.Batch
import Newfile.Bytes
import Newfile.Copy
import Newfile.Extents
import Newfile.Copies
import Newfile.Ledger
import Newfile.Bookkeeping
import Newfile.Places
import Newfile.Modes
import Newfile.Sizes
import Newfile.Grown
import Newfile.Serial
import Newfile.Durable
import Newfile.Calls
import Newfile.Ranges
import Newfile.Fill
import Newfile.Limits
import Newfile.Listings
import Newfile.Batches
import Newfile.Crowds
import Newfile.Evidence
import Newfile.Answers
import Newfile.Positional
import Newfile.Decimals
import Newfile.Suffixes
import Newfile.Ordered
import Newfile.Catalog
import Newfile.Traces
import Newfile.Numbering
import Newfile.Partition
import Newfile.Greedy
import Newfile.Wrap
import Newfile.Owner
import Newfile.Argv
import Newfile.Spec
import Newfile.Resolve
import Newfile.Entries
import Newfile.Agreement
import Newfile.Parents
import Newfile.Standing
import Newfile.Files
import Newfile.Veiled
import Newfile.Tree
import Newfile.Races
import Newfile.Interrupts
import Newfile.Journals
import Newfile.Crashes
