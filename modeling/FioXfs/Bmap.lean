import FioXfs.Btree
import FioXfs.Inode
import FioXfs.Lib.Walk
import Mathlib.Data.List.Sort
set_option autoImplicit false

/-!
# Block maps (`bmap.rs`, and the long-form tree of `btree.rs`)

An inode fork's logical-to-physical mapping, whether it is a list of extents in the
inode or a B+tree rooted there: how the writer lays it out (`layFork`, the part of
`map_fork` past its allocation) and how the reader gets it back (`forkMap`).
-/

namespace FioXfs.Bmap

open FioXfs.Lib FioXfs.Btree

/-! ## Extents -/

/-- One run of blocks. -/
structure Extent where
  /-- First logical block in the fork. -/
  offset : Nat
  /-- First filesystem block on the device. -/
  block : Nat
  /-- Blocks in the run. -/
  count : Nat
  /-- Allocated but never written: reads as zeroes. -/
  unwritten : Bool
  deriving DecidableEq

namespace Extent

/-- Decode a packed 128-bit extent record. -/
def decode (rec : Bytes) : Extent :=
  let l0 := be64 rec 0
  let l1 := be64 rec 8
  { unwritten := l0 / 2 ^ 63 != 0
    offset := l0 % 2 ^ 63 / 2 ^ 9
    block := (l0 % 2 ^ 9) <<< 43 ||| l1 / 2 ^ 21
    count := l1 % 2 ^ 21 }

/-- Pack into a 128-bit extent record. -/
def encode (e : Extent) : Bytes :=
  let l0 := e.unwritten.toNat <<< 63 ||| (e.offset % 2 ^ 54) <<< 9 ||| e.block / 2 ^ 43
  let l1 := (e.block % 2 ^ 43) <<< 21 ||| e.count % 2 ^ 21
  toBe 8 l0 ++ toBe 8 l1

/-- One past the last logical block. -/
def stop (e : Extent) : Nat := e.offset + e.count

end Extent

/-! ## Reading a fork -/

/-- `BMAP`: a v4 B+tree block. -/
def BMAP_MAGIC : Nat := 0x424d4150
/-- `BMA3`: a v5 one. -/
def BMA3_MAGIC : Nat := 0x424d4133

/-- Extents stored directly in a fork, `count` of them. -/
def inlineExtents (fork : Bytes) (count : Nat) : Result (List Extent) := do
  failIf (2 ^ 64 ≤ count * 16 ∨ fork.length < count * 16)
    (.corrupt s!"{count} extents do not fit in the fork")
  return (List.range count).map fun i => Extent.decode (slice fork (i * 16) 16)

/-- The root of a B+tree held in a fork: its level and child block numbers.  Keys fill
the first half of the space and pointers the second, each sized for as many records as
the fork could hold. -/
def btreeRoot (fork : Bytes) : Result (Nat × List Nat) := do
  failIf (fork.length < 4) (.corrupt "B+tree root in a tiny fork")
  let level := be16 fork 0
  let numrecs := be16 fork 2
  let maxrecs := (fork.length - 4) / 16
  failIf (level = 0 ∨ numrecs = 0 ∨ maxrecs < numrecs)
    (.corrupt s!"B+tree root: level {level}, {numrecs} records")
  return (level, (List.range numrecs).map fun i => be64 fork (4 + maxrecs * 8 + i * 8))

/-- Header length of a long-format B+tree block. -/
def longBlockHeader (sb : Superblock) : Nat := if sb.isV5 then 72 else 24

/-- The magic of a B+tree block, and on v5 its checksum and owner. -/
def checkMagic (sb : Superblock) (buf : Bytes) (fsb owner : Nat) : Result Unit :=
  if sb.isV5 then do
    failIf (be32 buf 0 ≠ BMA3_MAGIC) (.corrupt s!"bmap block {fsb}: bad magic")
    failIf (Crc.verify buf 64 = false) (.corrupt s!"bmap block {fsb}: checksum")
    failIf (be64 buf 56 ≠ owner) (.corrupt s!"bmap block {fsb}: owned by {be64 buf 56}")
  else failIf (be32 buf 0 ≠ BMAP_MAGIC) (.corrupt s!"bmap block {fsb}: bad magic")

/-- Check a B+tree block and return its level and record count. -/
def checkBtreeBlock (sb : Superblock) (buf : Bytes) (fsb owner : Nat) : Result (Nat × Nat) := do
  checkMagic sb buf fsb owner
  let level := be16 buf 4
  let numrecs := be16 buf 6
  failIf ((buf.length - longBlockHeader sb) / 16 < numrecs)
    (.corrupt s!"bmap block {fsb}: {numrecs} records")
  return (level, numrecs)

/-- Child pointers of an interior B+tree block. -/
def nodePtrs (sb : Superblock) (buf : Bytes) (numrecs : Nat) : List Nat :=
  let hdr := longBlockHeader sb
  let maxrecs := (buf.length - hdr) / 16
  (List.range numrecs).map fun i => be64 buf (hdr + maxrecs * 8 + i * 8)

/-- Records of a leaf B+tree block. -/
def leafExtents (sb : Superblock) (buf : Bytes) (numrecs : Nat) : List Extent :=
  (List.range numrecs).map fun i => Extent.decode (slice buf (longBlockHeader sb + i * 16) 16)

/-- Whether two neighbours overlap, the first pair that does. -/
def checkOverlap : List Extent → Result Unit
  | a :: b :: es => do
      failIf (b.offset < a.stop)
        (.corrupt s!"overlapping extents at logical blocks {a.offset} and {b.offset}")
      checkOverlap (b :: es)
  | _ => .ok ()

/-- Sort a fork's extents and check they do not overlap. -/
def finish (extents : List Extent) : Result (List Extent) := do
  let sorted := (extents.filter fun e => decide (0 < e.count)).insertionSort
    fun a b => a.offset ≤ b.offset
  checkOverlap sorted
  return sorted

/-- The extent covering logical block `lblk`, if any. -/
def find (extents : List Extent) (lblk : Nat) : Option Extent :=
  (extents.dropWhile fun e => decide (e.stop ≤ lblk)).head?.filter
    fun e => decide (e.offset ≤ lblk)

/-- `count` blocks from filesystem block `fsb`, which must stay inside one AG. -/
def readBlocks (dev : Device) (sb : Superblock) (fsb count : Nat) : Result Bytes := do
  let at_ ← sb.fsbToByte fsb
  let _ ← sb.fsbToByte (fsb + count - 1)
  dev.readAt at_ (count <<< sb.blockLog)

/-- A B+tree block of inode `ino`'s fork, checked: its extents or its children. -/
def readBmapBlock (dev : Device) (sb : Superblock) (ino fsb want : Nat) :
    Result (Node Nat Extent) := do
  let buf ← readBlocks dev sb fsb 1
  let (lvl, n) ← checkBtreeBlock sb buf fsb ino
  failIf (lvl ≠ want) (.corrupt s!"inode {ino}: bmap block {fsb} at level {lvl}, expected {want}")
  if lvl = 0 then return .leaf (leafExtents sb buf n)
  else return .node (nodePtrs sb buf n)

/-- What the walk asks of a block before it is read: that it is a new one, and that
there are no more of them than the inode has blocks. -/
def checkSeen (ino nblocks fsb : Nat) (blocks : List Nat) : Result Unit := do
  let loops : Error := .corrupt s!"inode {ino}: bmap B+tree loops"
  failIf (fsb ∈ blocks) loops
  failIf (2 ^ 64 ≤ nblocks + 1) (.panic "attempt to add with overflow")
  failIf (nblocks + 1 < blocks.length + 1) loops

/-- The extents and the blocks of a fork's B+tree.  No block is read twice and there
are at most `nblocks + 1`, which bounds the walk. -/
def walkBmap (dev : Device) (sb : Superblock) (inode : Inode) (fork : Bytes) :
    Result (List Extent × List Nat) := do
  let (level, ptrs) ← btreeRoot fork
  walkStack (checkSeen inode.ino inode.nblocks) (readBmapBlock dev sb inode.ino)
    (fun _ => .corrupt s!"inode {inode.ino}: bmap B+tree loops") (inode.nblocks + 2)
    (ptrs.map (·, level - 1)) [] []

/-- The format, the bytes and the extent count of a fork, when there is one. -/
def forkOf (inode : Inode) (attr : Bool) : Option (Format × Bytes × Nat) :=
  if attr then inode.aformat.map (·, inode.attrFork, inode.anextents)
  else some (inode.format, inode.dataFork, inode.nextents)

/-- A fork's extents, and the blocks of its B+tree when it has one. -/
def forkMap (dev : Device) (sb : Superblock) (inode : Inode) (attr : Bool) :
    Result (List Extent × List Nat) :=
  match forkOf inode attr with
  | none => .ok ([], [])
  | some (.extents, fork, count) => do
      let out ← inlineExtents fork count
      return (← finish out, [])
  | some (.btree, fork, _) => do
      let (out, blocks) ← walkBmap dev sb inode fork
      failIf (attr = false ∧ out.length ≠ inode.nextents)
        (.corrupt s!"inode {inode.ino}: {out.length} extents in the B+tree, {inode.nextents} recorded")
      return (← finish out, blocks)
  | some (_, _, _) => .ok ([], [])

/-! ## Laying a fork out -/

/-- Records in a bmap B+tree block. -/
def bmapBlockMax (blockSize : Nat) : Nat := (blockSize - LONG_HDR) / 16

/-- Entries an inode fork of `forkSize` bytes holds as a B+tree root. -/
def bmapRootMax (forkSize : Nat) : Nat := (forkSize - 4) / 16

/-- Blocks at each level, leaves first, under a root of `rootMax` entries.  The loop
does not end when the root has no room for an entry. -/
def bmapLevelSizes (n blockSize rootMax : Nat) : Option (List Nat) :=
  let leaves := max (divCeil n (bmapBlockMax blockSize)) 1
  (levelsAbove rootMax (bmapBlockMax blockSize) leaves leaves).map (leaves :: ·)

/-- Blocks a bmap B+tree of `n` extents takes under a root of `rootMax` entries held in
the inode. -/
def bmapBlocks (n blockSize rootMax : Nat) : Option Nat :=
  (bmapLevelSizes n blockSize rootMax).map List.sum

/-- A block with its header filled in. -/
def bmapHeader (sb : Superblock) (ino level take left right at_ : Nat) : Bytes :=
  let buf := List.replicate sb.blockSize 0
  let buf := put32 buf 0 BMA3_MAGIC
  let buf := put16 buf 4 level
  let buf := put16 buf 6 take
  let buf := put64 buf 8 left
  let buf := put64 buf 16 right
  let buf := put64 buf 24 (at_ / 512)
  let buf := splice buf 40 sb.metaUuid
  put64 buf 56 ino

/-- A block's place on the device, once every address has been found to have one. -/
def placeOf (sb : Superblock) (fsb : Nat) : Nat := (sb.fsbToByte fsb).toOption.getD 0

/-- A leaf over packed extents and their offsets. -/
def bmapLeaf (sb : Superblock) (ino left right addr : Nat) (part : List (Bytes × Nat)) :
    (Nat × Nat) × Bytes :=
  let buf := bmapHeader sb ino 0 part.length left right (placeOf sb addr)
  let buf := fillSlots 16 buf LONG_HDR (part.map (·.1))
  (((part.map (·.2)).headD 0, addr), Crc.stamp buf 64)

/-- A node at `level` over (key, pointer) entries. -/
def bmapNode (sb : Superblock) (ino level left right addr : Nat) (part : List (Nat × Nat)) :
    (Nat × Nat) × Bytes :=
  let buf := bmapHeader sb ino level part.length left right (placeOf sb addr)
  let buf := fillSlots 8 buf LONG_HDR (part.map fun e => toBe 8 e.1)
  let buf := fillSlots 8 buf (LONG_HDR + bmapBlockMax sb.blockSize * 8)
    (part.map fun e => toBe 8 e.2)
  (((part.map (·.1)).headD 0, addr), Crc.stamp buf 64)

/-- Build a bmap B+tree over packed extent records and their offsets, sorted, in the
blocks `fsbs` (exactly `bmapBlocks` of them), owned by inode `ino`.  Each address is
checked as its block is made, so a bad one stops the build; with no records at all the
first leaf has no key. -/
def buildBmap (sb : Superblock) (ino : Nat) (recs : List (Bytes × Nat)) (fsbs : List Nat)
    (rootMax : Nat) : Result Built :=
  match bmapLevelSizes recs.length sb.blockSize rootMax with
  | none => .error (.panic "the level sizes never end")
  | some sizes => do
      failIf (sizes.sum ≠ fsbs.length) (.panic "bmap B+tree block count")
      let _ ← sb.fsbToByte (fsbs.headD 0)
      failIf (recs = []) (.panic "index out of bounds")
      let _ ← fsbs.mapM sb.fsbToByte
      let t := buildTree NULL_FSBLOCK (bmapLeaf sb ino) (bmapNode sb ino) Prod.snd
        (sizes.headD 0) sizes.tail fsbs recs
      return { blocks := t.2, root := 0, levels := sizes.length + 1, rootEntries := t.1 }

/-- The bytes of an inode fork holding a bmap B+tree root. -/
def bmapRootFork (forkSize level : Nat) (entries : List (Nat × Nat)) : Bytes :=
  let f := List.replicate forkSize 0
  let f := put16 f 0 level
  let f := put16 f 2 entries.length
  let f := fillSlots 8 f 4 (entries.map fun e => toBe 8 e.1)
  fillSlots 8 f (4 + bmapRootMax forkSize * 8) (entries.map fun e => toBe 8 e.2)

/-- Extents as the records a fork or a leaf keeps. -/
def packExtents (extents : List Extent) : Bytes := extents.flatMap Extent.encode

/-- `map_fork` once its blocks are allocated: the format, the fork's bytes and the
B+tree's blocks with their contents. -/
def layFork (sb : Superblock) (ino : Nat) (extents : List Extent) (forkSize : Nat)
    (fsbs : List Nat) : Result (Format × Bytes × List (Nat × Bytes)) :=
  if extents.length ≤ forkSize / 16 then .ok (.extents, packExtents extents, [])
  else do
    let recs := extents.map fun e => (e.encode, e.offset)
    let built ← buildBmap sb ino recs fsbs (bmapRootMax forkSize)
    return (.btree, bmapRootFork forkSize (built.levels - 1) built.rootEntries, built.blocks)

end FioXfs.Bmap
