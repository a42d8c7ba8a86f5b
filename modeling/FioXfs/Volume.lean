import FioXfs.Alloc
import FioXfs.Bmap
import FioXfs.Dir
import FioXfs.Log
set_option autoImplicit false

/-!
# An open filesystem (`volume.rs`, and the state `write.rs` keeps)

The volume and everything that only reads it: inodes, block maps, file contents,
directories, symbolic links and paths.  A path is its bytes, which are UTF-8.
-/

namespace FioXfs

open FioXfs.Lib FioXfs.Alloc FioXfs.Bmap FioXfs.Dir

/-! ## State -/

/-- A directory changed since the last flush. -/
structure DirState where
  parent : Nat
  /-- Each name's inode and `ftype` code. -/
  names : OrdMap Bytes (Nat × Nat)

/-- What the write side holds between flushes. -/
structure Writer where
  ags : OrdMap Nat Ag
  dirs : OrdMap Nat DirState
  rng : Nat
  newChunks : Nat

/-- An open XFS filesystem. -/
structure Volume where
  dev : Device
  sb : Superblock
  log : LogState
  /-- What the write side holds in memory; created by the first write. -/
  w : Option Writer
  /-- The time stamped on what is written, when fixed. -/
  time : Option Timestamp
  /-- What the system's clock will read, from now on. -/
  clock : List Timestamp

/-- `.` -/
def DOT : Bytes := [46]
/-- `..` -/
def DOTDOT : Bytes := [46, 46]
/-- `/` -/
def SLASH : UInt8 := 47

/-- A path in an error. -/
def shown (path : Bytes) : String := (String.fromUTF8? ⟨path.toArray⟩).getD ""

/-- The components of a path, without empty ones and `.`. -/
def splitPath (path : Bytes) : List Bytes :=
  (path.splitOn SLASH).filter fun c => decide (c ≠ [] ∧ c ≠ DOT)

/-- A directory's names, `.` and `..` first, when it is held in memory. -/
def Writer.cachedEntries (w : Writer) (ino : Nat) : Option (List RawEntry) :=
  (w.dirs.get? ino).map fun d =>
    ⟨DOT, ino, .directory⟩ :: ⟨DOTDOT, d.parent, .directory⟩ ::
      d.names.entries.map fun e => ⟨e.1, e.2.1, .fromFtype e.2.2⟩

namespace Volume

/-- Symbolic links followed while resolving one path. -/
def MAX_SYMLINKS : Nat := 40

/-- The longest symlink target XFS stores. -/
def MAX_LINK : Nat := 1024

/-- A v5 remote symlink block's header length, and its magic. -/
def SYMLINK_HDR : Nat := 56
def SYMLINK_MAGIC : Nat := 0x58534c4d

/-! ## Inodes and file contents -/

/-- Read inode `ino`. -/
def inode (v : Volume) (ino : Nat) : Result Inode := do
  let at_ ← v.sb.inoToByte ino
  let bs := v.sb.blockSize
  let buf ← v.dev.readAt (at_ / bs * bs) bs
  Inode.parse v.sb ino (buf.drop (at_ % bs))

/-- A fork's extents, and the blocks of its bmap B+tree when it has one. -/
def forkMap (v : Volume) (i : Inode) (attr : Bool) : Result (List Extent × List Nat) :=
  Bmap.forkMap v.dev v.sb i attr

/-- The extents of an inode's data fork, or its attribute fork. -/
def extents (v : Volume) (i : Inode) (attr : Bool) : Result (List Extent) :=
  Prod.fst <$> v.forkMap i attr

/-- The extents that meet the logical blocks `lblk..stop`. -/
def meeting (extents : List Extent) (lblk stop : Nat) : List Extent :=
  (extents.dropWhile fun e => decide (e.stop ≤ lblk)).takeWhile fun e => decide (e.offset < stop)

/-- `out`, the blocks `lblk..stop`, with what extent `e` maps of them filled in. -/
def fillMapped (v : Volume) (lblk stop : Nat) (out : Bytes) (e : Extent) : Result Bytes :=
  if e.unwritten then .ok out
  else do
    let first := max e.offset lblk
    let data ← readBlocks v.dev v.sb (e.block + (first - e.offset)) (min e.stop stop - first)
    return splice out ((first - lblk) * v.sb.blockSize) data

/-- `count` logical blocks of a fork starting at `lblk`, with holes and unwritten extents
read as zeroes. -/
def readMapped (v : Volume) (extents : List Extent) (lblk count : Nat) : Result Bytes :=
  (meeting extents lblk (lblk + count)).foldlM (v.fillMapped lblk (lblk + count))
    (List.replicate (count * v.sb.blockSize) 0)

/-- `len` bytes of a regular file's contents from `offset`, clipped to its size. -/
def readInodeRange (v : Volume) (i : Inode) (extents : List Extent) (offset len : Nat) :
    Result Bytes := do
  if i.size ≤ offset ∨ len = 0 then return []
  let len := min len (i.size - offset)
  if i.format = .local_ then do
    failIf (i.dataFork.length < offset + len)
      (.corrupt s!"inode {i.ino}: inline data past the fork")
    return slice i.dataFork offset len
  failIf i.isRealtime (.unsupported s!"inode {i.ino}: data on the realtime device")
  let bs := v.sb.blockSize
  let first := offset / bs
  let last := (offset + len - 1) / bs
  let buf ← v.readMapped extents first (last - first + 1)
  return slice buf (offset - first * bs) len

/-! ## Directories -/

/-- The directory blocks that extent `e` maps below `limit`, from `next` on. -/
def dirBlocksOf (per limit next : Nat) (e : Extent) : List Nat :=
  let lblk := max (e.offset / per * per) next
  (List.range (divCeil (min e.stop limit - lblk) per)).map fun i => lblk + per * i

/-- The directory blocks that a directory's extents map below `limit`. -/
def dirBlocks (per limit : Nat) : Nat → List Extent → List Nat
  | _, [] => []
  | next, e :: es =>
      let ls := dirBlocksOf per limit next e
      ls ++ dirBlocks per limit ((ls.getLast?.map (· + per)).getD next) es

/-- Every name in a directory inode as stored, `.` and `..` included. -/
def dirEntries (v : Volume) (i : Inode) : Result (List RawEntry) := do
  failIf (!i.isDir) (.notADirectory s!"inode {i.ino}")
  -- A directory changed since the last flush is in memory, not on disk.
  match v.w.bind (·.cachedEntries i.ino) with
  | some names => return names
  | none =>
      if i.format = .local_ then do
        let (parent, names) ← parseShortform v.sb i.dataFork i.size
        return ⟨DOT, i.ino, .directory⟩ :: ⟨DOTDOT, parent, .directory⟩ :: names
      else do
        let extents ← v.extents i false
        let per ← shl64 1 v.sb.dirblkLog
        let blocks ← (dirBlocks per (LEAF_OFFSET >>> v.sb.blockLog) 0 extents).mapM fun lblk => do
          let buf ← v.readMapped extents lblk per
          parseDataBlock v.sb buf i.ino
        return blocks.flatten

/-- The first entry of a name. -/
def findEntry (names : List RawEntry) (name : Bytes) : Option RawEntry :=
  names.find? fun e => decide (e.name = name)

def dirLookup (v : Volume) (dir : Inode) (name : Bytes) : Result (Option Nat) := do
  let names ← v.dirEntries dir
  return (findEntry names name).map (·.ino)

/-! ## Symbolic links -/

/-- The target of a v5 remote symlink, one header per mapped extent, after `out` of it. -/
def symlinkBlocks (v : Volume) (i : Inode) : Bytes → List Extent → Result Bytes
  | out, [] => return out
  | out, e :: es => do
      if i.size ≤ out.length then return out
      failIf e.unwritten (.corrupt s!"inode {i.ino}: unwritten symlink block")
      let buf ← readBlocks v.dev v.sb e.block e.count
      let bytes := be32 buf 8
      failIf (be32 buf 0 ≠ SYMLINK_MAGIC ∨ Crc.verify buf 12 = false ∨ be64 buf 32 ≠ i.ino ∨
          be32 buf 4 ≠ out.length ∨ buf.length < SYMLINK_HDR + bytes)
        (.corrupt s!"inode {i.ino}: remote symlink block {e.offset}")
      symlinkBlocks v i (out ++ slice buf SYMLINK_HDR bytes) es

/-- A symlink inode's target, as stored. -/
def symlinkTarget (v : Volume) (i : Inode) : Result Bytes := do
  failIf (i.fileType ≠ Mode.IFLNK) (.notASymlink s!"inode {i.ino}")
  let size := i.size
  failIf (size = 0 ∨ MAX_LINK < size) (.corrupt s!"inode {i.ino}: symlink of {size} bytes")
  if i.format = .local_ then do
    failIf (i.dataFork.length < size) (.corrupt s!"inode {i.ino}: inline symlink past the fork")
    return i.dataFork.take size
  let extents ← v.extents i false
  if !v.sb.isV5 then do
    let buf ← v.readMapped extents 0 (divCeil size v.sb.blockSize)
    return buf.take size
  let out ← v.symlinkBlocks i [] extents
  failIf (out.length ≠ size)
    (.corrupt s!"inode {i.ino}: symlink blocks hold {out.length} of {size} bytes")
  return out

/-! ## Paths -/

/-- Where following components leads before the next symbolic link. -/
inductive Walked where
  /-- To the end of the path. -/
  | done (ino : Nat)
  /-- To a link in directory `dir`, with components left. -/
  | link (dir : Nat) (target : Inode) (rest : List Bytes)

/-- Follow components from directory `cur` up to a symbolic link that is to be followed. -/
def walkComps (v : Volume) (path : Bytes) (follow : Bool) : Nat → List Bytes → Result Walked
  | cur, [] => return .done cur
  | cur, comp :: comps => do
      let dir ← v.inode cur
      failIf (!dir.isDir) (.notADirectory (shown path))
      match ← v.dirLookup dir comp with
      | none => throw (.notFound (shown path))
      | some child =>
          if comps = [] ∧ follow = false then return .done child
          else do
            let i ← v.inode child
            if i.fileType = Mode.IFLNK then return .link cur i comps
            else walkComps v path follow child comps

/-- Follow components, with `left` links still allowed. -/
def resolveLoop (v : Volume) (path : Bytes) (follow : Bool) :
    Nat → Nat → List Bytes → Result Nat
  | left, cur, comps => do
      match ← v.walkComps path follow cur comps with
      | .done ino => return ino
      | .link dir i rest =>
          match left with
          | 0 => throw (.symlinkLoop (shown path))
          | left + 1 => do
              let target ← v.symlinkTarget i
              resolveLoop v path follow left (if target.head? = some SLASH then v.sb.rootIno else dir)
                (splitPath target ++ rest)

/-- Resolve a path to an inode number.  Symlinks in the middle of a path are followed; the
last component is followed only when `follow` is set. -/
def resolve (v : Volume) (path : Bytes) (follow : Bool) : Result Nat :=
  v.resolveLoop path follow MAX_SYMLINKS v.sb.rootIno (splitPath path)

/-- The inode a path names, without following a final symlink. -/
def lookup (v : Volume) (path : Bytes) : Result Nat := v.resolve path false

/-! ## Opening -/

/-- The superblock's buffer: a v5 superblock's checksum covers its whole sector. -/
def readSuper (dev : Device) : Result Bytes := do
  let buf ← dev.readAt 0 512
  let sect := be16 buf 102
  if 512 < sect ∧ sect ≤ 32768 ∧ sect ≤ dev.size then dev.readAt 0 sect else return buf

/-- Open the filesystem on `dev` whatever its log says, and read it as it stands. -/
def openNorecovery (dev : Device) (clock : List Timestamp) : Result Volume := do
  failIf (dev.size < 512) (.notXfs "device smaller than a sector")
  let buf ← readSuper dev
  let sb ← Superblock.parse buf
  let stop := sb.dataBlocks * sb.blockSize
  failIf (2 ^ 64 ≤ stop ∨ dev.size < stop)
    (.corrupt s!"the filesystem is {sb.dataBlocks} blocks of {sb.blockSize} bytes, the device {dev.size} bytes")
  let log ← match logState dev sb with
    | .error (.corrupt why) => .ok (.unreadable why)
    | r => r
  return { dev := dev, sb := sb, log := log, w := none, time := none, clock := clock }

end Volume

end FioXfs
