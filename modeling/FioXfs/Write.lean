import FioXfs.DirWrite
import FioXfs.Volume
set_option autoImplicit false

/-!
# The write side (`write.rs`)

Creating, replacing and removing files, directories, symlinks and device nodes.  File
contents and inodes are written as they are given; a changed directory is kept as its
list of names and each touched group's free space, inode chunks and reverse mappings in
memory, until `flush` lays them out.  A method that fails leaves the volume as far as it
got.
-/

namespace FioXfs

open FioXfs.Lib FioXfs.Alloc FioXfs.Bmap FioXfs.Dir FioXfs.DirWrite

/-- The fixed part of a v3 inode, before its forks. -/
def CORE : Nat := 176
/-- The inode's checksum. -/
def INODE_CRC : Nat := 100
/-- No next inode on an unlinked list. -/
def NULL_AGINO : Nat := 2 ^ 32 - 1
/-- The longest symlink target the writer makes. -/
def MAX_TARGET : Nat := 1023
/-- Largest write handed to the device at once. -/
def WRITE_CHUNK : Nat := 2 ^ 20

/-- Permissions and ownership for something being created. -/
structure Attrs where
  mode : Nat
  uid : Nat
  gid : Nat
  deriving DecidableEq

namespace Attrs

def default : Attrs := ⟨0o644, 0, 0⟩

/-- The defaults a directory wants rather than a file. -/
def dir : Attrs := ⟨0o755, 0, 0⟩

def perms (a : Attrs) : Nat := a.mode &&& 0o7777

end Attrs

/-- What kind of special file to create. -/
inductive Special where
  | charDevice (major minor : Nat)
  | blockDevice (major minor : Nat)
  | fifo
  | socket
  deriving DecidableEq

namespace Special

def modeBits : Special → Nat
  | charDevice _ _ => Mode.IFCHR
  | blockDevice _ _ => Mode.IFBLK
  | fifo => Mode.IFIFO
  | socket => Mode.IFSOCK

/-- The 32-bit device number, when the two halves fit. -/
def device : Special → Result Nat
  | charDevice major minor | blockDevice major minor => do
      failIf (2 ^ 14 ≤ major ∨ 2 ^ 18 ≤ minor)
        (.unsupported s!"device {major}:{minor} does not fit XFS's 32-bit number")
      return major <<< 18 ||| minor
  | fifo | socket => .ok 0

end Special

/-! ## The writer -/

namespace Writer

/-- A fresh writer, its generator seeded from the clock. -/
def new (now : Timestamp) : Writer :=
  let nanos := (now.secs * 1000000000 + now.nsecs).toNat % 2 ^ 64
  { ags := .empty, dirs := .empty, rng := nanos ||| 1, newChunks := 0 }

/-- One step of the generator: its next state and a generation number. -/
def nextGen (w : Writer) : Nat × Writer :=
  let r := w.rng ^^^ (w.rng >>> 12)
  let r := r ^^^ ((r <<< 25) % 2 ^ 64)
  let r := r ^^^ (r >>> 27)
  ((r * 0x2545f4914f6cdd1d % 2 ^ 64) >>> 32, { w with rng := r })

end Writer

/-- The least seconds a 32-bit time stores. -/
def MIN_SECS : Int := -2147483648

/-- A time as it is stored. -/
def tsRaw (t : Timestamp) (bigtime : Bool) : Result Nat :=
  if bigtime then do
    failIf (9223372036854775808 ≤ t.secs - MIN_SECS) (.panic "attempt to add with overflow")
    let secs := (max (t.secs - MIN_SECS) 0).toNat
    failIf (2 ^ 64 ≤ secs * 1000000000) (.panic "attempt to multiply with overflow")
    failIf (2 ^ 64 ≤ secs * 1000000000 + t.nsecs) (.panic "attempt to add with overflow")
    return secs * 1000000000 + t.nsecs
  else
    let secs := max MIN_SECS (min t.secs 2147483647) % 4294967296
    .ok (secs.toNat <<< 32 ||| t.nsecs)

/-- Split a path into its parent and last name. -/
def splitLast (path : Bytes) : Result (Bytes × Bytes) := do
  let t := (path.reverse.dropWhile fun c => decide (c = SLASH)).reverse
  let name := (t.reverse.takeWhile fun c => decide (c ≠ SLASH)).reverse
  let parent := ((t.reverse.dropWhile fun c => decide (c ≠ SLASH)).drop 1).reverse
  failIf (name = [] ∨ name = DOT ∨ name = DOTDOT ∨ 255 < name.length) (.invalidPath (shown path))
  return (if parent = [] then [SLASH] else parent, name)

/-! ## Raw inodes -/

namespace Raw

def flags2 (r : Bytes) : Nat := be64 r 120

def bigtime (r : Bytes) : Bool := hasBit (flags2 r) DIFLAG2_BIGTIME

def dataForkSize (r : Bytes) : Nat :=
  let n := getBe 1 r 82 * 8
  if n = 0 then r.length - CORE else n

def setDataFork (r : Bytes) (format : Format) (fork : Bytes) : Result Bytes := do
  let n := dataForkSize r
  failIf (n < fork.length) (.panic "data fork too big for the inode")
  let r := putBe 1 r 5 format.code
  let r := splice r CORE (List.replicate n 0)
  return splice r CORE fork

def setNextents (r : Bytes) (n : Nat) : Bytes :=
  if hasBit (flags2 r) DIFLAG2_NREXT64 then put64 r 24 n else put32 r 76 n

def setSize (r : Bytes) (n : Nat) : Bytes := put64 r 56 n

def nblocks (r : Bytes) : Nat := be64 r 64

def setNblocks (r : Bytes) (n : Nat) : Bytes := put64 r 64 n

def nlink (r : Bytes) : Nat := be32 r 16

def setNlink (r : Bytes) (n : Nat) : Bytes := put32 r 16 n

def mode (r : Bytes) : Nat := be16 r 2

def setMode (r : Bytes) (m : Nat) : Bytes := put16 r 2 m

def setOwner (r : Bytes) (uid gid : Nat) : Bytes := put32 (put32 r 8 uid) 12 gid

/-- Set mtime and ctime (`content`) or just ctime. -/
def touch (r : Bytes) (now : Timestamp) (content : Bool) : Result Bytes := do
  let t ← tsRaw now (bigtime r)
  let r := if content then put64 r 40 t else r
  let r := put64 r 48 t
  return put64 r 104 (be64 r 104 + 1)

end Raw

namespace Volume

variable {α : Type}

/-! ## Parts of the volume -/

/-- Run a method of the device. -/
def onDev (x : Act Device α) : Act Volume α :=
  zoom Volume.dev (fun dev v => { v with dev := dev }) x

/-- What the system's clock reads. -/
def readClock : Act Volume Timestamp := do
  let v ← get
  match v.clock with
  | [] => return ⟨0, 0⟩
  | t :: ts => do
      set { v with clock := ts }
      return t

/-- The time to stamp: the fixed one, else the clock's. -/
def now : Act Volume Timestamp := do
  let v ← get
  match v.time with
  | some t => return t
  | none => readClock

/-- Make sure there is a writer, which needs a filesystem that can be written. -/
def writer : Act Volume Unit := do
  let v ← get
  if v.w.isNone then do
    liftE v.sb.checkWritable
    failIf (v.log ≠ .clean ∧ v.log ≠ .external)
      (.unsupported "writing: the log is not clean; mount and unmount the filesystem once first")
    let t ← readClock
    modify fun v => { v with w := some (Writer.new t) }

/-- The writer, which must be there. -/
def getWriter : Act Volume Writer := do
  let v ← get
  match v.w with
  | none => throw (.panic "writer")
  | some w => return w

def modifyWriter (f : Writer → Writer) : Act Volume Unit :=
  modify fun v => { v with w := v.w.map f }

/-- The next generation number. -/
def nextGen : Act Volume Nat := do
  let w ← getWriter
  modifyWriter fun w => w.nextGen.2
  return w.nextGen.1

/-- Make sure AG `agno` is in memory. -/
def loadAg (agno : Nat) : Act Volume Unit := do
  writer
  let w ← getWriter
  if (w.ags.get? agno).isNone then do
    let v ← get
    let ag ← liftE (Alloc.load v.dev v.sb agno)
    modifyWriter fun w => { w with ags := w.ags.insert agno ag }

/-- Run a method of AG `agno`, which must be in memory. -/
def onAg (agno : Nat) (x : Act Ag α) : Act Volume α := do
  let w ← getWriter
  match w.ags.get? agno with
  | none => throw (.panic "AG loaded")
  | some ag =>
      zoom (fun _ => ag)
        (fun ag v => { v with w := v.w.map fun w => { w with ags := w.ags.insert agno ag } }) x

/-- The AGs in cyclic order from `first`.  The sum is of 32 bits. -/
def agOrder (sb : Superblock) (first : Nat) : Result (List Nat) :=
  (List.range sb.agCount).mapM fun i => do
    failIf (2 ^ 32 ≤ first % sb.agCount + i) (.panic "attempt to add with overflow")
    return (first % sb.agCount + i) % sb.agCount

/-! ## Blocks -/

/-- Take runs from AG `agno` until `left` blocks are taken or it has none to spare.  Every
run has a block, so `left` of them are enough. -/
def allocFrom (agno near : Nat) : Nat → Nat → Act Volume (List (Nat × Nat) × Nat)
  | _, 0 => return ([], 0)
  | 0, _ + 1 => throw (.panic "allocating nothing without end")
  | fuel + 1, left + 1 => do
      match ← onAg agno (alloc (min (left + 1) MAX_EXTENT) near) with
      | none => return ([], left + 1)
      | some (s, l) => do
          let v ← get
          let (runs, left) ← allocFrom agno near fuel (left + 1 - l)
          return ((v.sb.agbToFsb agno s, l) :: runs, left)

/-- Take runs from one AG after another. -/
def allocAcross (pref near : Nat) : List Nat → Nat → Act Volume (List (Nat × Nat) × Nat)
  | [], left => return ([], left)
  | agno :: agnos, left => do
      if left = 0 then return ([], 0)
      loadAg agno
      let (runs, left) ← allocFrom agno (if agno = pref then near else 0) left left
      let (more, left) ← allocAcross pref near agnos left
      return (runs ++ more, left)

/-- Give back runs just allocated. -/
def undoAlloc : List (Nat × Nat) → Act Volume Unit
  | [] => pure ()
  | (fsb, l) :: runs => do
      let v ← get
      let (agno, agbno) := v.sb.fsbToAgb fsb
      onAg agno (freeExtent agbno l)
      undoAlloc runs

/-- `n` blocks, from AG `pref` near `near` when there is room, as (first filesystem block,
length) runs. -/
def allocBlocks (pref n near : Nat) : Act Volume (List (Nat × Nat)) := do
  let v ← get
  let agnos ← liftE (agOrder v.sb pref)
  let (out, left) ← allocAcross pref near agnos n
  if 0 < left then do
    undoAlloc out
    throw (.noSpace s!"{n} blocks")
  return out

/-- Record who owns blocks that were just allocated. -/
def rmapExtent (fsb len owner offset : Nat) : Act Volume Unit := do
  let v ← get
  let (agno, agbno) := v.sb.fsbToAgb fsb
  onAg agno (rmapAdd v.sb agbno len owner offset)

/-- Give blocks back, and forget who owned them. -/
def release (fsb len owner : Nat) : Act Volume Unit := do
  let v ← get
  let (agno, agbno) := v.sb.fsbToAgb fsb
  loadAg agno
  onAg agno (freeExtent agbno len)
  onAg agno (rmapRemove v.sb agbno len owner)

/-- Release runs one after another. -/
def releaseAll (owner : Nat) : List (Nat × Nat) → Act Volume Unit
  | [] => pure ()
  | (fsb, len) :: runs => do
      release fsb len owner
      releaseAll owner runs

/-- The runs of a list of extents, with counts as 32-bit words. -/
def extentRuns (extents : List Extent) : List (Nat × Nat) :=
  extents.map fun e => (e.block, e.count % 2 ^ 32)

/-- Free a fork's blocks, its B+tree's included; returns how many. -/
def freeFork (i : Inode) (attr : Bool) : Act Volume Nat := do
  let v ← get
  let (extents, btreeBlocks) ← liftE (v.forkMap i attr)
  releaseAll i.ino (extentRuns extents)
  releaseAll i.ino (btreeBlocks.map (·, 1))
  return (extents.map (·.count)).sum + btreeBlocks.length

/-- Put the part of `data` from byte `at_` to `stop` on the device from `devAt` on, piece by piece,
with zeroes where `data` has ended. -/
def writePieces (data : Bytes) (stop : Nat) : Nat → Nat → Nat → Act Device Unit
  | 0, _, _ => throw (.panic "out of fuel")
  | fuel + 1, at_, devAt =>
      if at_ < stop then do
        let n := min (stop - at_) WRITE_CHUNK
        let have_ := min (data.length - at_) n
        failIf (data.length < at_) (.panic "range start index out of range for slice")
        Device.writeAt devAt (slice data at_ have_ ++ List.replicate (n - have_) 0)
        writePieces data stop fuel (at_ + n) (devAt + n)
      else pure ()

/-- Write `data` into the blocks `extents` map, the last one zero-padded.  A piece takes in a
byte at least, which bounds their number. -/
def writeMapped (data : Bytes) : List Extent → Act Volume Unit
  | [] => pure ()
  | e :: es => do
      let v ← get
      let bs := v.sb.blockSize
      let at_ := e.offset * bs
      let stop := min (e.stop * bs) (divCeil data.length bs * bs)
      let devAt ← liftE (v.sb.fsbToByte e.block)
      onDev (writePieces data stop (stop - at_ + 1) at_ devAt)
      writeMapped data es

/-- An inode's AG and the AG block it sits in: where its data should go. -/
def nearIno (sb : Superblock) (ino : Nat) : Nat × Nat :=
  let (agno, agino) := sb.inoToAgino ino
  (agno, agino / 2 ^ sb.inopbLog)

/-- Record the runs of a B+tree's blocks. -/
def recordBmbt (ino : Nat) : List (Nat × Nat) → Act Volume Unit
  | [] => pure ()
  | (fsb, len) :: runs => do
      rmapExtent fsb len ino RMAP_BMBT
      recordBmbt ino runs

/-- Write blocks, each at its own address. -/
def writeFsbs : List (Nat × Bytes) → Act Volume Unit
  | [] => pure ()
  | (fsb, buf) :: bs => do
      let v ← get
      let at_ ← liftE (v.sb.fsbToByte fsb)
      onDev (Device.writeAt at_ buf)
      writeFsbs bs

/-- The part of `map_fork` after `bmap_blocks`: map `extents` under a bmap B+tree of `nb` blocks. -/
def mapOver (ino : Nat) (extents : List Extent) (forkSize nb : Nat) :
    Act Volume (Format × Bytes × Nat) := do
  let v ← get
  let (agno, near) := nearIno v.sb ino
  let runs ← allocBlocks agno nb near
  recordBmbt ino runs
  let (format, fork, blocks) ← liftE (layFork v.sb ino extents forkSize (expand runs))
  writeFsbs blocks
  return (format, fork, nb)

/-- Map `extents` in a fork of `forkSize` bytes: in the inode when they fit, else under a
bmap B+tree.  Returns the format, the fork's bytes and the number of the B+tree's blocks. -/
def mapFork (ino : Nat) (extents : List Extent) (forkSize : Nat) : Act Volume (Format × Bytes × Nat) := do
  if extents.length ≤ forkSize / 16 then return (.extents, packExtents extents, 0)
  let v ← get
  match bmapBlocks extents.length v.sb.blockSize (bmapRootMax forkSize) with
  | none => throw (.panic "the level sizes never end")
  | some nb => mapOver ino extents forkSize nb

/-- Record runs as consecutive parts of a fork, from logical block `lblk` on. -/
def recordRuns (ino : Nat) : Nat → List (Nat × Nat) → Act Volume (List Extent)
  | _, [] => return []
  | lblk, (fsb, len) :: runs => do
      rmapExtent fsb len ino lblk
      let rest ← recordRuns ino (lblk + len) runs
      return ⟨lblk, fsb, len, false⟩ :: rest

/-- Store a regular file's contents in new blocks.  Returns the fork's format and bytes,
the blocks used and the extent count. -/
def storeData (ino forkSize : Nat) (data : Bytes) : Act Volume (Format × Bytes × Nat × Nat) := do
  let v ← get
  let n := divCeil data.length v.sb.blockSize
  if n = 0 then return (.extents, [], 0, 0)
  let (agno, near) := nearIno v.sb ino
  let runs ← allocBlocks agno n near
  let extents ← recordRuns ino 0 runs
  recover
    (do
      writeMapped data extents
      let (format, fork, btreeBlocks) ← mapFork ino extents forkSize
      return (format, fork, n + btreeBlocks, extents.length))
    fun e => do
      releaseAll ino (extentRuns extents)
      throw e

/-! ## Inodes -/

/-- An inode's bytes, checked. -/
def readRaw (v : Volume) (ino : Nat) : Result Bytes := do
  let at_ ← v.sb.inoToByte ino
  let buf ← v.dev.readAt at_ v.sb.inodeSize
  failIf (be16 buf 0 ≠ Inode.MAGIC ∨ Crc.verify buf INODE_CRC = false ∨ be64 buf 152 ≠ ino)
    (.corrupt s!"inode {ino}: magic, checksum or number")
  return buf

/-- Write an inode back, checksummed: the whole block around it. -/
def writeRaw (ino : Nat) (raw : Bytes) : Act Volume Unit := do
  let v ← get
  let raw := Crc.stamp raw INODE_CRC
  let at_ ← liftE (v.sb.inoToByte ino)
  let bs := v.sb.blockSize
  let blockAt := at_ / bs * bs
  let buf ← liftE (v.dev.readAt blockAt bs)
  onDev (Device.writeAt blockAt (splice buf (at_ - blockAt) raw))

/-- The `flags2` of a new inode. -/
def newFlags2 (sb : Superblock) : Nat :=
  (if sb.hasBigtime then DIFLAG2_BIGTIME else 0) ||| (if sb.hasNrext64 then DIFLAG2_NREXT64 else 0)

/-- A new in-use inode's bytes. -/
def freshRaw (sb : Superblock) (ino mode uid gid nlink gen t : Nat) : Bytes :=
  let r := List.replicate sb.inodeSize 0
  let r := put16 r 0 Inode.MAGIC
  let r := put16 r 2 mode
  let r := putBe 1 r 4 3
  let r := putBe 1 r 5 Format.extents.code
  let r := put32 r 8 uid
  let r := put32 r 12 gid
  let r := put32 r 16 nlink
  let r := put64 r 120 (newFlags2 sb)
  let r := put64 r 32 t
  let r := put64 r 40 t
  let r := put64 r 48 t
  let r := put64 r 144 t
  let r := putBe 1 r 83 Format.extents.code
  let r := put32 r 92 gen
  let r := put32 r 96 NULL_AGINO
  let r := put64 r 104 1
  let r := put64 r 152 ino
  splice r 160 sb.metaUuid

/-- A new in-use inode's bytes, with an empty extent-format data fork. -/
def newRaw (ino mode uid gid nlink : Nat) : Act Volume Bytes := do
  let t ← now
  let gen ← nextGen
  let v ← get
  let raw ← liftE (tsRaw t v.sb.hasBigtime)
  return freshRaw v.sb ino mode uid gid nlink gen raw

/-- A free inode's bytes. -/
def freeRaw (sb : Superblock) (ino gen : Nat) : Bytes :=
  let r := List.replicate sb.inodeSize 0
  let r := put16 r 0 Inode.MAGIC
  let r := putBe 1 r 4 3
  let r := put32 r 92 gen
  let r := put32 r 96 NULL_AGINO
  let r := put64 r 152 ino
  let r := splice r 160 sb.metaUuid
  Crc.stamp r INODE_CRC

/-- The bytes of `count` free inodes from `ino` on. -/
def freeInodes (sb : Superblock) : Nat → Nat → Act Volume Bytes
  | _, 0 => return []
  | ino, count + 1 => do
      let gen ← nextGen
      let rest ← freeInodes sb (ino + 1) count
      return freeRaw sb ino gen ++ rest

/-- Write a new chunk's inodes, all free. -/
def initChunk (agno agbno : Nat) : Act Volume Unit := do
  let v ← get
  let sb := v.sb
  let first := sb.aginoToIno agno ((agbno <<< sb.inopbLog) % 2 ^ 32)
  let buf ← freeInodes sb first CHUNK_INODES
  onDev (Device.writeAt (sb.agbToByte agno agbno) buf)

/-- The most inodes the filesystem may have, when it has a limit. -/
def maxInodes (sb : Superblock) : Nat := sb.dataBlocks * sb.imaxPct / 100 * sb.inodesPerBlock

/-- Whether one more chunk would be over the limit. -/
def overLimit (sb : Superblock) (newChunks : Nat) : Bool :=
  decide (0 < sb.imaxPct ∧ maxInodes sb < sb.icount + (newChunks + 1) * CHUNK_INODES)

/-- Refuse a chunk that would be over the limit.  The sums and products are of 64 bits. -/
def checkLimit (sb : Superblock) (newChunks : Nat) : Result Unit := do
  if 0 < sb.imaxPct then do
    failIf (2 ^ 64 ≤ sb.dataBlocks * sb.imaxPct ∨ 2 ^ 64 ≤ maxInodes sb ∨
        2 ^ 64 ≤ (newChunks + 1) * CHUNK_INODES)
      (.panic "attempt to multiply with overflow")
    failIf (2 ^ 64 ≤ sb.icount + (newChunks + 1) * CHUNK_INODES)
      (.panic "attempt to add with overflow")
    failIf (overLimit sb newChunks)
      (.noSpace s!"inodes may take {sb.imaxPct}% of the space")

/-- A free inode from the first AG of a list that has one or has room for a chunk. -/
def allocInoFrom : List Nat → Act Volume Nat
  | [] => throw (.noSpace "no room for more inodes")
  | agno :: agnos => do
      loadAg agno
      let v ← get
      match ← onAg agno allocInode with
      | some agino => return v.sb.aginoToIno agno agino
      | none => do
          let w ← getWriter
          liftE (checkLimit v.sb w.newChunks)
          match ← onAg agno (allocChunk v.sb) with
          | none => allocInoFrom agnos
          | some agbno => do
              match ← onAg agno allocInode with
              | none => throw (.panic "a new chunk has free inodes")
              | some agino => do
                  modifyWriter fun w => { w with newChunks := w.newChunks + 1 }
                  initChunk agno agbno
                  return v.sb.aginoToIno agno agino

/-- A free inode, preferring AG `pref`. -/
def allocIno (pref : Nat) : Act Volume Nat := do
  let v ← get
  let agnos ← liftE (agOrder v.sb pref)
  allocInoFrom agnos

/-- Give back an inode allocated but never written. -/
def unallocIno (ino : Nat) : Act Volume Unit := do
  let v ← get
  let (agno, agino) := v.sb.inoToAgino ino
  onAg agno (freeInode agino)

/-- A freed inode's bytes, made from what it was. -/
def destroyedRaw (sb : Superblock) (ino : Nat) (raw : Bytes) : Bytes :=
  let r := List.replicate raw.length 0
  let r := put16 r 0 Inode.MAGIC
  let r := putBe 1 r 4 3
  let r := putBe 1 r 5 Format.extents.code
  let r := putBe 1 r 83 Format.extents.code
  let r := put64 r 120 (Raw.flags2 raw &&& (DIFLAG2_BIGTIME ||| DIFLAG2_NREXT64))
  let r := put32 r 92 (be32 raw 92 + 1)
  let r := put32 r 96 NULL_AGINO
  let r := put64 r 152 ino
  splice r 160 sb.metaUuid

/-- Free an inode and everything it holds. -/
def destroy (i : Inode) : Act Volume Unit := do
  failIf (hasBit i.flags2 DIFLAG2_REFLINK)
    (.unsupported s!"inode {i.ino}: removing a file with shared extents")
  failIf i.isRealtime (.unsupported s!"inode {i.ino}: data on the realtime device")
  let _ ← freeFork i false
  if i.aformat.isSome then do
    let _ ← freeFork i true
  let v ← get
  let raw ← liftE (v.readRaw i.ino)
  writeRaw i.ino (destroyedRaw v.sb i.ino raw)
  let (agno, agino) := v.sb.inoToAgino i.ino
  loadAg agno
  onAg agno (freeInode agino)

/-! ## Directories -/

/-- The directory a new name goes in, and the name. -/
def parentDir (v : Volume) (path : Bytes) : Result (Nat × Bytes) := do
  let (parent, name) ← splitLast path
  let dino ← v.resolve parent true
  let dir ← v.inode dino
  failIf (!dir.isDir) (.notADirectory (shown parent))
  return (dino, name)

/-- What `name` in directory `dino` refers to. -/
def entry (v : Volume) (dino : Nat) (name : Bytes) : Result (Option (Nat × FileType)) := do
  let dir ← v.inode dino
  let names ← v.dirEntries dir
  return (findEntry names name).map fun e => (e.ino, e.ftype)

/-- A directory's names as they are held in memory: the last `..` is the parent. -/
def dirStateOf (dino : Nat) (names : List RawEntry) : DirState :=
  names.foldl
    (fun st e =>
      if e.name = DOTDOT then { st with parent := e.ino }
      else if e.name ≠ DOT then { st with names := st.names.insert e.name (e.ino, e.ftype.code) }
      else st)
    ⟨dino, .empty⟩

/-- Directory `dino`'s names, held in memory from now until the flush. -/
def dirState (dino : Nat) : Act Volume Unit := do
  writer
  let w ← getWriter
  if (w.dirs.get? dino).isNone then do
    let v ← get
    let dir ← liftE (v.inode dino)
    let names ← liftE (v.dirEntries dir)
    modifyWriter fun w => { w with dirs := w.dirs.insert dino (dirStateOf dino names) }

/-- Change the names of a directory, which is then held in memory. -/
def changeNames (dino : Nat) (f : OrdMap Bytes (Nat × Nat) → OrdMap Bytes (Nat × Nat)) :
    Act Volume Unit := do
  dirState dino
  modifyWriter fun w =>
    match w.dirs.get? dino with
    | none => w
    | some st => { w with dirs := w.dirs.insert dino { st with names := f st.names } }

/-- Runs of consecutive logical blocks. -/
def lblkRuns (per : Nat) (blocks : List DirBlock) : List (Nat × Nat) :=
  blocks.foldl
    (fun runs b =>
      match runs.getLast? with
      | some (s, n) =>
          if s + n = b.lblk then runs.dropLast ++ [(s, n + per)] else runs ++ [(b.lblk, per)]
      | none => [(b.lblk, per)])
    []

/-- Allocate and record each run of a directory's logical blocks. -/
def allocRuns (dino agno near : Nat) : List (Nat × Nat) → Act Volume (List Extent)
  | [] => return []
  | (lstart, n) :: runs => do
      let got ← allocBlocks agno n near
      let extents ← recordRuns dino lstart got
      let rest ← allocRuns dino agno near runs
      return extents ++ rest

/-- The filesystem block a directory's logical block is mapped to. -/
def fsbOf (extents : List Extent) (lblk : Nat) : Result Nat :=
  match Bmap.find extents lblk with
  | none => .error (.corrupt "directory block unmapped")
  | some e => .ok (e.block + (lblk - e.offset))

/-- A directory block with its own address and its checksum filled in. -/
def finishBlock (b : DirBlock) (daddr : Nat) : Bytes :=
  Crc.stamp (put64 b.data b.blknoOff daddr) b.crcOff

/-- Write the filesystem blocks of one directory block, from the `k`th on. -/
def writeDirParts (extents : List Extent) (lblk : Nat) (data : Bytes) :
    Nat → Nat → Act Volume Unit
  | _, 0 => pure ()
  | k, count + 1 => do
      let v ← get
      let fsb ← liftE (fsbOf extents (lblk + k))
      let at_ ← liftE (v.sb.fsbToByte fsb)
      onDev (Device.writeAt at_ (slice data (k * v.sb.blockSize) v.sb.blockSize))
      writeDirParts extents lblk data (k + 1) count

/-- Write a directory's blocks. -/
def writeDirBlocks (extents : List Extent) (per : Nat) : List DirBlock → Act Volume Unit
  | [] => pure ()
  | b :: bs => do
      let v ← get
      let first ← liftE (fsbOf extents b.lblk)
      let at_ ← liftE (v.sb.fsbToByte first)
      writeDirParts extents b.lblk (finishBlock b (at_ / 512)) 0 per
      writeDirBlocks extents per bs

/-- The names of a directory as the layout takes them. -/
def DirState.ents (st : DirState) : List DirEnt :=
  st.names.entries.map fun e => ⟨e.1, e.2.1, e.2.2⟩

/-- Put a directory's layout on the device: the format, the fork, the size, the blocks used
and the extent count. -/
def placeDir (dino forkSize : Nat) : Layout → Act Volume (Format × Bytes × Nat × Nat × Nat)
  | .short bytes => return (.local_, bytes, bytes.length, 0, 0)
  | .blocks size blocks => do
      let v ← get
      let per ← liftE (shl64 1 v.sb.dirblkLog)
      let runs := lblkRuns per blocks
      let (agno, near) := nearIno v.sb dino
      let extents ← allocRuns dino agno near runs
      writeDirBlocks extents per blocks
      let (format, fork, btreeBlocks) ← mapFork dino extents forkSize
      return (format, fork, size, (runs.map (·.2)).sum + btreeBlocks, extents.length)

/-- Lay a directory out from its names and write it. -/
def writeDir (dino : Nat) (st : DirState) : Act Volume Unit := do
  let v ← get
  let i ← liftE (v.inode dino)
  failIf (!i.isDir) (.corrupt s!"inode {dino}: not a directory")
  let freed ← freeFork i false
  let v ← get
  let raw ← liftE (v.readRaw dino)
  let forkSize := Raw.dataForkSize raw
  let names := DirState.ents st
  let subdirs := names.countP fun e => decide (e.ftype = FileType.directory.code)
  let laid ← liftE (layout v.sb dino st.parent names forkSize)
  let (format, fork, size, used, nextents) ← placeDir dino forkSize laid
  let raw ← liftE (Raw.setDataFork raw format fork)
  let raw := Raw.setSize raw size
  let raw := Raw.setNextents raw nextents
  let raw := Raw.setNblocks raw (Raw.nblocks raw - freed + used)
  let raw := Raw.setNlink raw (2 + subdirs)
  let t ← now
  let raw ← liftE (Raw.touch raw t true)
  writeRaw dino raw

/-! ## Making things -/

/-- Allocate an inode for a new name at `path`: the directory, the name, the inode number
and its bytes, ready for a fork. -/
def createNode (path : Bytes) (mode uid gid nlink : Nat) :
    Act Volume (Nat × Bytes × Nat × Bytes) := do
  let v ← get
  let (dino, name) ← liftE (v.parentDir path)
  let found ← liftE (v.entry dino name)
  failIf found.isSome (.exists_ (shown path))
  writer
  let ino ← allocIno (v.sb.inoToAgino dino).1
  let raw ← newRaw ino mode uid gid nlink
  return (dino, name, ino, raw)

/-- Put a name in a directory. -/
def addName (dino : Nat) (name : Bytes) (ino : Nat) (kind : FileType) : Act Volume Unit :=
  changeNames dino fun names => names.insert name (ino, kind.code)

/-- Replace the contents of regular file `ino`. -/
def replaceFile (path : Bytes) (ino : Nat) (data : Bytes) (attrs : Option Attrs) :
    Act Volume Nat := do
  writer
  let v ← get
  let i ← liftE (v.inode ino)
  failIf (hasBit i.flags2 DIFLAG2_REFLINK)
    (.unsupported s!"{shown path}: rewriting a file with shared extents")
  failIf i.isRealtime (.unsupported s!"{shown path}: data on the realtime device")
  let raw ← liftE (v.readRaw ino)
  -- The new contents first: if there is no room, the old stay.
  let (format, fork, used, nextents) ← storeData ino (Raw.dataForkSize raw) data
  let freed ← freeFork i false
  let raw ← liftE (Raw.setDataFork raw format fork)
  let raw := Raw.setSize raw data.length
  let raw := Raw.setNextents raw nextents
  let raw := Raw.setNblocks raw (Raw.nblocks raw - freed + used)
  let raw := match attrs with
    | none => raw
    | some a => Raw.setOwner (Raw.setMode raw (Mode.IFREG ||| a.perms)) a.uid a.gid
  let t ← now
  let raw ← liftE (Raw.touch raw t true)
  writeRaw ino raw
  return ino

/-- Create a regular file. -/
def createFile (path : Bytes) (data : Bytes) (a : Attrs) : Act Volume Nat := do
  let (dino, name, ino, raw) ← createNode path (Mode.IFREG ||| a.perms) a.uid a.gid 1
  let (format, fork, used, nextents) ←
    recover (storeData ino (Raw.dataForkSize raw) data) fun e => do
      unallocIno ino
      throw e
  let raw ← liftE (Raw.setDataFork raw format fork)
  let raw := Raw.setSize raw data.length
  let raw := Raw.setNextents raw nextents
  let raw := Raw.setNblocks raw used
  writeRaw ino raw
  addName dino name ino .file
  return ino

/-- Create or replace a regular file. -/
def writeFile (path : Bytes) (data : Bytes) (attrs : Option Attrs) : Act Volume Nat := do
  let v ← get
  let (dino, name) ← liftE (v.parentDir path)
  match ← liftE (v.entry dino name) with
  | some (ino, .file) => replaceFile path ino data attrs
  | some (_, .directory) => throw (.isADirectory (shown path))
  | some _ => throw (.exists_ (shown path))
  | none => createFile path data (attrs.getD .default)

/-- Create or replace a regular file, `0644` and owned by root when new. -/
def write (path : Bytes) (data : Bytes) : Act Volume Nat := writeFile path data none

/-- Create or replace a regular file with these permissions and owner. -/
def writeWith (path : Bytes) (data : Bytes) (attrs : Attrs) : Act Volume Nat :=
  writeFile path data (some attrs)

/-- Make a directory with these permissions and owner. -/
def mkdirWith (path : Bytes) (attrs : Attrs) : Act Volume Nat := do
  let (dino, name, ino, raw) ← createNode path (Mode.IFDIR ||| attrs.perms) attrs.uid attrs.gid 2
  let v ← get
  match ← liftE (layout v.sb ino dino [] (Raw.dataForkSize raw)) with
  | .blocks _ _ => throw (.panic "an empty directory fits in its inode")
  | .short fork => do
      let raw ← liftE (Raw.setDataFork raw .local_ fork)
      writeRaw ino (Raw.setSize raw fork.length)
      modifyWriter fun w => { w with dirs := w.dirs.insert ino ⟨dino, .empty⟩ }
      addName dino name ino .directory
      return ino

/-- Make a directory, `0755` and owned by root. -/
def mkdir (path : Bytes) : Act Volume Nat := mkdirWith path .dir

/-- One block for a symlink's part `i`, not next to the one before. -/
def symlinkBlock (ino i : Nat) (prev : Option Nat) : List Nat → Act Volume (Option Nat)
  | [] => return none
  | a :: agnos => do
      loadAg a
      let v ← get
      let not := match prev.map v.sb.fsbToAgb with
        | some (pa, pb) => if pa = a then pb + 1 else 2 ^ 32 - 1
        | none => 2 ^ 32 - 1
      match ← onAg a (allocBlockExcept not) with
      | none => symlinkBlock ino i prev agnos
      | some b => do
          let fsb := v.sb.agbToFsb a b
          rmapExtent fsb 1 ino i
          return some fsb

/-- One block for each of a symlink's parts from the `i`th on, given those already taken:
all of them, or what there was when room ran out. -/
def symlinkExtents (ino agno : Nat) : Nat → List Extent → Nat → Act Volume (List Extent × Bool)
  | _, taken, 0 => return (taken, true)
  | i, taken, count + 1 => do
      let v ← get
      let agnos ← liftE (agOrder v.sb agno)
      match ← symlinkBlock ino i (taken.getLast?.map (·.block)) agnos with
      | none => return (taken, false)
      | some fsb => symlinkExtents ino agno (i + 1) (taken ++ [⟨i, fsb, 1, false⟩]) count

/-- A remote symlink block: `part` of the target, from offset `off`. -/
def symlinkBuf (sb : Superblock) (ino off at_ : Nat) (part : Bytes) : Bytes :=
  let buf := List.replicate sb.blockSize 0
  let buf := put32 buf 0 SYMLINK_MAGIC
  let buf := put32 buf 4 off
  let buf := put32 buf 8 part.length
  let buf := splice buf 16 sb.metaUuid
  let buf := put64 buf 32 ino
  let buf := put64 buf 40 (at_ / 512)
  let buf := splice buf SYMLINK_HDR part
  Crc.stamp buf 12

/-- Write the blocks of a remote symlink, from offset `off` of the target on. -/
def writeSymlink (ino payload : Nat) (target : Bytes) : Nat → List Extent → Act Volume Unit
  | _, [] => pure ()
  | off, e :: es => do
      let v ← get
      let at_ ← liftE (v.sb.fsbToByte e.block)
      onDev (Device.writeAt at_ (symlinkBuf v.sb ino off at_ (slice target off payload)))
      writeSymlink ino payload target (off + payload) es

/-- A symlink too long for its inode: one block per extent, never two blocks next to each
other. -/
def remoteSymlink (path : Bytes) (ino : Nat) (raw target : Bytes) : Act Volume Bytes := do
  let v ← get
  let payload := v.sb.blockSize - SYMLINK_HDR
  let nblk := divCeil target.length payload
  let (extents, all) ← symlinkExtents ino (nearIno v.sb ino).1 0 [] nblk
  if !all then do
    releaseAll ino (extents.map fun e => (e.block, 1))
    unallocIno ino
    throw (.noSpace (shown path))
  writeSymlink ino payload target 0 extents
  let raw ← liftE (Raw.setDataFork raw .extents (packExtents extents))
  return Raw.setNblocks (Raw.setNextents raw extents.length) nblk

/-- Make a symbolic link at `path` pointing at `target`. -/
def symlink (path target : Bytes) : Act Volume Nat := do
  failIf (target = [] ∨ MAX_TARGET < target.length)
    (.invalidPath s!"symlink target of {target.length} bytes")
  let (dino, name, ino, raw) ← createNode path (Mode.IFLNK ||| 0o777) 0 0 1
  let raw ←
    if target.length ≤ Raw.dataForkSize raw then do
      let raw ← liftE (Raw.setDataFork raw .local_ target)
      pure (Raw.setNextents raw 0)
    else remoteSymlink path ino raw target
  writeRaw ino (Raw.setSize raw target.length)
  addName dino name ino .symlink
  return ino

/-- Make a device node, FIFO or socket. -/
def mknod (path : Bytes) (kind : Special) (attrs : Attrs) : Act Volume Nat := do
  let dev ← liftE kind.device
  let (dino, name, ino, raw) ←
    createNode path (kind.modeBits ||| attrs.perms) attrs.uid attrs.gid 1
  let raw ← liftE (Raw.setDataFork raw .dev (toBe 4 dev))
  writeRaw ino raw
  addName dino name ino (.fromMode kind.modeBits)
  return ino

/-- Give an existing file (not a directory) another name. -/
def link (existing newPath : Bytes) : Act Volume Nat := do
  let v ← get
  let ino ← liftE (v.lookup existing)
  let i ← liftE (v.inode ino)
  failIf i.isDir (.isADirectory (shown existing))
  let (dino, name) ← liftE (v.parentDir newPath)
  let found ← liftE (v.entry dino name)
  failIf found.isSome (.exists_ (shown newPath))
  writer
  let v ← get
  let raw ← liftE (v.readRaw ino)
  failIf (2 ^ 32 ≤ Raw.nlink raw + 1) (.panic "attempt to add with overflow")
  let raw := Raw.setNlink raw (Raw.nlink raw + 1)
  let t ← now
  let raw ← liftE (Raw.touch raw t false)
  writeRaw ino raw
  addName dino name ino (.fromMode i.mode)
  return ino

/-! ## Removing things -/

/-- One name of an inode less: the inode goes with its last. -/
def dropLink (ino : Nat) : Act Volume Unit := do
  let v ← get
  let i ← liftE (v.inode ino)
  if i.nlink ≤ 1 then destroy i
  else do
    let raw ← liftE (v.readRaw ino)
    let raw := Raw.setNlink raw (Raw.nlink raw - 1)
    let t ← now
    let raw ← liftE (Raw.touch raw t false)
    writeRaw ino raw

/-- Remove a name that is not a directory. -/
def unlink (path : Bytes) : Act Volume Unit := do
  let v ← get
  let (dino, name) ← liftE (v.parentDir path)
  match ← liftE (v.entry dino name) with
  | none => throw (.notFound (shown path))
  | some (ino, kind) => do
      failIf (kind = .directory) (.isADirectory (shown path))
      writer
      dropLink ino
      changeNames dino fun names => names.erase name

/-- Remove an empty directory. -/
def rmdir (path : Bytes) : Act Volume Unit := do
  let v ← get
  let (dino, name) ← liftE (v.parentDir path)
  match ← liftE (v.entry dino name) with
  | none => throw (.notFound (shown path))
  | some (ino, kind) => do
      failIf (kind ≠ .directory) (.notADirectory (shown path))
      let i ← liftE (v.inode ino)
      let names ← liftE (v.dirEntries i)
      failIf (2 < names.length) (.notEmpty (shown path))
      writer
      destroy i
      modifyWriter fun w => { w with dirs := w.dirs.erase ino }
      changeNames dino fun names => names.erase name

/-! ## Changing things -/

/-- Change the raw inode a path leads to. -/
def changeInode (path : Bytes) (f : Bytes → Bytes) : Act Volume Unit := do
  let v ← get
  let ino ← liftE (v.resolve path true)
  writer
  let raw ← liftE (v.readRaw ino)
  let t ← now
  let raw ← liftE (Raw.touch (f raw) t false)
  writeRaw ino raw

/-- Change permission bits, following symlinks. -/
def chmod (path : Bytes) (perms : Nat) : Act Volume Unit :=
  changeInode path fun raw =>
    Raw.setMode raw (Raw.mode raw &&& Mode.IFMT ||| perms &&& 0o7777)

/-- Change the owner, following symlinks. -/
def chown (path : Bytes) (uid gid : Nat) : Act Volume Unit :=
  changeInode path fun raw => Raw.setOwner raw uid gid

/-! ## Flush -/

/-- Write every directory of a list. -/
def writeDirs : List (Nat × DirState) → Act Volume Unit
  | [] => pure ()
  | (dino, st) :: dirs => do
      writeDir dino st
      writeDirs dirs

/-- Rebuild the AGs of a list that have changed: the writes to make. -/
def rebuildAgs (sb : Superblock) : List Nat → Act Volume (List (Nat × Bytes))
  | [] => return []
  | agno :: agnos => do
      let w ← getWriter
      match w.ags.get? agno with
      | none => rebuildAgs sb agnos
      | some ag =>
          if ag.dirty then do
            let writes ← onAg agno (rebuild sb)
            let rest ← rebuildAgs sb agnos
            return writes ++ rest
          else rebuildAgs sb agnos

/-- An AG's headers: those in memory, else as they stand on the device. -/
def headersOf (v : Volume) (agno : Nat) : Result (Bytes × Bytes) :=
  match v.w.bind (·.ags.get? agno) with
  | some ag => .ok (ag.agf, ag.agi)
  | none => readHeaders v.dev v.sb agno

/-- The sums over AGs of inodes, free inodes and free blocks, added to those so far. -/
def countersOf (v : Volume) : List Nat → Nat × Nat × Nat → Result (Nat × Nat × Nat)
  | [], sums => return sums
  | agno :: agnos, (icount, ifree, fdblocks) => do
      let (agf, agi) ← v.headersOf agno
      let (count, free) := agiInodes agi
      failIf (2 ^ 64 ≤ icount + count ∨ 2 ^ 64 ≤ ifree + free ∨
          2 ^ 64 ≤ fdblocks + agfFreeBlocks agf)
        (.panic "attempt to add with overflow")
      countersOf v agnos (icount + count, ifree + free, fdblocks + agfFreeBlocks agf)

/-- Write the superblock's counters. -/
def writeSuper (icount ifree fdblocks : Nat) : Act Volume Unit := do
  let v ← get
  let sbuf ← liftE (v.dev.readAt 0 v.sb.sect)
  let sbuf := put64 sbuf 128 icount
  let sbuf := put64 sbuf 136 ifree
  let sbuf := put64 sbuf 144 fdblocks
  onDev (Device.writeAt 0 (Crc.stamp sbuf 224))
  modify fun v => { v with sb := { v.sb with icount := icount, ifree := ifree, freeBlocks := fdblocks } }

/-- Bring everything on disk up to date: lay out every changed directory, rebuild the
B+trees of every AG touched, write the AG headers and the superblock's counters, and flush
the device. -/
def flush : Act Volume Unit := do
  let v ← get
  match v.w with
  | none => onDev Device.flush
  | some w => do
      modifyWriter fun w => { w with dirs := .empty }
      writeDirs w.dirs.entries
      let w ← getWriter
      let writes ← rebuildAgs v.sb w.ags.keys
      onDev (Device.writeAll writes)
      let v ← get
      let (icount, ifree, fdblocks) ← liftE (v.countersOf (List.range v.sb.agCount) (0, 0, 0))
      writeSuper icount ifree fdblocks
      modifyWriter fun w => { w with newChunks := 0 }
      onDev Device.flush

end Volume

end FioXfs
