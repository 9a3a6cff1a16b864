import Lambutter.Programs
import Lambutter.Machine
import Lambutter.Format
import Lambutter.Ranges
import Lambutter.ChunkMap
import Lambutter.Reader
import Lambutter.Reference
import Lambutter.LogicalReads
import Lambutter.SearchTree
import Lambutter.Checksum
import Lambutter.Btree
import Lambutter.Descent
import Lambutter.Walk
import Lambutter.Passes
import Lambutter.Compression
import Lambutter.File
import Lambutter.Extents
import Lambutter.FileWalks
import Lambutter.FileContent
import Lambutter.FileAgreement
import Lambutter.FileLayouts
import Lambutter.FileSafety
import Lambutter.ChunkTree
import Lambutter.Packing
import Lambutter.Superblock
import Lambutter.Caps
import Lambutter.Framing
import Lambutter.RootTree
import Lambutter.Resolve
import Lambutter.Btrfs
import Lambutter.Iteration
import Lambutter.DirRecords
import Lambutter.Listing
import Lambutter.Forest
import Lambutter.ChunkWalk
import Lambutter.Handles
import Lambutter.Width
import Lambutter.PointerWidth
import Lambutter.BlockSearch
import Lambutter.Registers
import Lambutter.NameHash
import Lambutter.Runs
import Lambutter.Paths
import Lambutter.MetadataSafety
import Lambutter.Encryption
import Lambutter.Scans
import Lambutter.Streaming
import Lambutter.Simulation
import Lambutter.AddressSpace
import Lambutter.Sessions
import Lambutter.Mirrors
import Lambutter.Footprint
import Lambutter.Credits
import Lambutter.Budgets
import Lambutter.Damage
import Lambutter.Refinement
import Lambutter.FileSystem
import Lambutter.Pages
import Lambutter.Volume
