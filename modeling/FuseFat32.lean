import FuseFat32.Machine.LinuxFile
import FuseFat32.Library.Walk
import FuseFat32.Fat.Bpb
import FuseFat32.Fat.Entry
import FuseFat32.Fat.Geometry
import FuseFat32.Fat.Clusters
import FuseFat32.Fat.Table
import FuseFat32.Fat.Scan
import FuseFat32.Fat.Chains
import FuseFat32.Fat.Copies
import FuseFat32.Fat.Resize
import FuseFat32.Fat.Ownership
import FuseFat32.Fat.Trace
import FuseFat32.Fat.Agree
import FuseFat32.Fat.Count
import FuseFat32.Fat.Hint
import FuseFat32.Fat.Time
import FuseFat32.Fs.Mount
import FuseFat32.Fat.LastClusters
import FuseFat32.Fat.AllocFree
import FuseFat32.Library.Layout
import FuseFat32.Library.Calendar
import FuseFat32.Fs.File
import FuseFat32.Fs.Content
import FuseFat32.Fs.Write
import FuseFat32.Fuse.Sizes
import FuseFat32.Fs.Entries
import FuseFat32.Fs.OwnSlots
import FuseFat32.Fat.ShortName
import FuseFat32.Fat.Growth
import FuseFat32.Fs.Truncate
import FuseFat32.Fs.Gap
import FuseFat32.Fs.Exchange
import FuseFat32.Fs.FileRuns
import FuseFat32.Machine.LruCache
import FuseFat32.Machine.LruNodes
import FuseFat32.Machine.SectorCache
import FuseFat32.Machine.CachedDriver
import FuseFat32.Library.Segments
import FuseFat32.Fs.Directory
import FuseFat32.Fs.DirScan
import FuseFat32.Fs.Groups
import FuseFat32.Fs.NewGroup
import FuseFat32.Fs.LongNames
import FuseFat32.Fs.DirStep
import FuseFat32.Fs.Create
import FuseFat32.Fs.Remove
import FuseFat32.Fs.Rebuild
import FuseFat32.Library.WriteBack
import FuseFat32.Fs.Objects
import FuseFat32.Fs.Kept
import FuseFat32.Fs.Shelf
import FuseFat32.Fs.Holds
import FuseFat32.Fs.Belongs
import FuseFat32.Fs.Listing
import FuseFat32.Fs.Scanners
import FuseFat32.Fuse.Unlink
import FuseFat32.Library.Paging
import FuseFat32.Fuse.Readdir
import FuseFat32.Fs.Dropped
import FuseFat32.Fs.Undo
import FuseFat32.Fuse.Fsync
import FuseFat32.Fs.Rework
import FuseFat32.Fuse.Volume
import FuseFat32.Fuse.Requests
import FuseFat32.Fuse.Serve
import FuseFat32.Fuse.Held
import FuseFat32.Fuse.Restart
import FuseFat32.Fuse.Returns
import FuseFat32.Fs.DirWork
import FuseFat32.Fuse.DirRuns
import FuseFat32.Fuse.Catalog
import FuseFat32.Fuse.Reshape
import FuseFat32.Fuse.Names
import FuseFat32.Fuse.Lookups
import FuseFat32.Fuse.Changes
import FuseFat32.Fuse.Pending
import FuseFat32.Fuse.Creates
import FuseFat32.Fuse.Deletes
import FuseFat32.Fuse.Rmdir
import FuseFat32.Fs.Mkdir
import FuseFat32.Fuse.Mkdir
import FuseFat32.Fuse.NameRuns
