import FioXfs.Addresses
import FioXfs.Alloc.Accounting
import FioXfs.Alloc.Reload
import FioXfs.Alloc.SearchTree
import FioXfs.Alloc.Settle
import FioXfs.Attr.Bounds
import FioXfs.Bmap.ReadBack
import FioXfs.Bmap.ReadBlocks
import FioXfs.Crc.Damage
import FioXfs.Dir.Bounds
import FioXfs.DirWrite.Indexed
import FioXfs.Export.Inside
import FioXfs.Export.Sparse
import FioXfs.Log.Bounds
import FioXfs.Log.Ring
import FioXfs.Tar.ReadBack
import FioXfs.Volume.Contents
import FioXfs.Volume.Paths
import FioXfs.Volume.Preorder
import FioXfs.Write.Counters
import FioXfs.Write.Inodes
import FioXfs.Write.LinkMade
import FioXfs.Write.MapFork
import FioXfs.Write.Store
import FioXfs.Write.Stored
import FioXfs.Write.Times
