import FioXfs.Lib.Levels
import FioXfs.Superblock
set_option autoImplicit false

/-!
# Building B+trees whole (`btree.rs`)

Every tree the writer changes is laid out afresh from its sorted records, evenly
filled, leaves first.  The short-form (AG) trees are here; the long-form tree of
an inode's fork has a root of its own in the inode and stands in `Bmap`.
-/

namespace FioXfs.Btree

open FioXfs.Lib

/-- A short-form block's v5 header length. -/
def SHORT_HDR : Nat := 56

/-- A long-form block's v5 header length. -/
def LONG_HDR : Nat := 72

/-- No sibling, in a short-form tree. -/
def NULL_AGBLOCK : Nat := 2 ^ 32 - 1

/-- No sibling, in a long-form tree. -/
def NULL_FSBLOCK : Nat := 2 ^ 64 - 1

/-- Blocks at each level, leaves first, for `n` records: an empty tree is a root
leaf with no records, and the last level is a single root.  The loop ends by
itself: a node of any accepted block size holds at least two entries. -/
def levelSizes (n leafMax nodeMax : Nat) : List Nat :=
  let leaves := max (divCeil n leafMax) 1
  leaves :: (levelsAbove 1 nodeMax leaves leaves).getD []

/-- Blocks a short-form tree of `n` records takes. -/
def blocksFor (n leafMax nodeMax : Nat) : Nat := (levelSizes n leafMax nodeMax).sum

/-- One record of an AG B+tree, with its keys. -/
structure Rec where
  /-- The record as stored. -/
  data : Bytes
  /-- Its key. -/
  low : Bytes
  /-- Its high key: the last thing it covers. -/
  high : Bytes
  deriving DecidableEq

/-- What kind of AG B+tree. -/
structure AgSpec where
  /-- The block magic. -/
  magic : Nat
  /-- Record length. -/
  recLen : Nat
  /-- Key length. -/
  keyLen : Nat
  /-- Whether node entries carry a high key as well as a low one. -/
  overlapping : Bool
  /-- Key order, for picking the highest high key. -/
  cmp : Bytes → Bytes → Ordering

namespace AgSpec

def slots (spec : AgSpec) : Nat := if spec.overlapping then 2 else 1

/-- Records in a leaf. -/
def leafMax (spec : AgSpec) (blockSize : Nat) : Nat := (blockSize - SHORT_HDR) / spec.recLen

/-- Entries in a node. -/
def nodeMax (spec : AgSpec) (blockSize : Nat) : Nat :=
  (blockSize - SHORT_HDR) / (spec.keyLen * spec.slots + 4)

/-- Blocks a tree of `n` records takes. -/
def blocks (spec : AgSpec) (n blockSize : Nat) : Nat :=
  blocksFor n (spec.leafMax blockSize) (spec.nodeMax blockSize)

/-- Where a node's pointers start. -/
def ptrsAt (spec : AgSpec) (blockSize : Nat) : Nat :=
  SHORT_HDR + spec.nodeMax blockSize * (spec.keyLen * spec.slots)

end AgSpec

/-- A tree laid out in blocks. -/
structure Built where
  /-- Each block's address and contents. -/
  blocks : List (Nat × Bytes)
  /-- The root block (of a long-form tree, nothing: see `rootEntries`). -/
  root : Nat
  /-- Levels, leaves included. -/
  levels : Nat
  /-- Long-form trees: the inode root's (key, pointer) entries. -/
  rootEntries : List (Nat × Nat)
  deriving DecidableEq

/-- A finished block as the level above sees it. -/
structure Below where
  low : Bytes
  high : Bytes
  block : Nat
  deriving DecidableEq

/-- The low key of the first entry and the highest high key. -/
def keysOf (spec : AgSpec) : List (Bytes × Bytes) → Bytes × Bytes
  | [] => (List.replicate spec.keyLen 0, List.replicate spec.keyLen 0)
  | (low, high) :: rest =>
      (low, rest.foldl (fun best e => if spec.cmp e.2 best == .gt then e.2 else best) high)

/-- A block with its header filled in. -/
def agHeader (sb : Superblock) (agno : Nat) (spec : AgSpec) (level take left right addr : Nat) :
    Bytes :=
  let buf := List.replicate sb.blockSize 0
  let buf := put32 buf 0 spec.magic
  let buf := put16 buf 4 level
  let buf := put16 buf 6 take
  let buf := put32 buf 8 left
  let buf := put32 buf 12 right
  let buf := put64 buf 16 (sb.agbToByte agno addr / 512)
  let buf := splice buf 32 sb.metaUuid
  put32 buf 48 agno

/-- A leaf over `part`. -/
def agLeaf (sb : Superblock) (agno : Nat) (spec : AgSpec) (left right addr : Nat)
    (part : List Rec) : Below × Bytes :=
  let buf := agHeader sb agno spec 0 part.length left right addr
  let buf := fillSlots spec.recLen buf SHORT_HDR (part.map (·.data))
  let keys := keysOf spec (part.map fun r => (r.low, r.high))
  (⟨keys.1, keys.2, addr⟩, Crc.stamp buf 52)

/-- What a node stores of an entry's keys. -/
def keySlot (spec : AgSpec) (e : Below) : Bytes :=
  if spec.overlapping then e.low ++ e.high else e.low

/-- A node at `level` over `part`: the keys first, then the pointers, each table
sized for as many entries as the block could hold. -/
def agNode (sb : Superblock) (agno : Nat) (spec : AgSpec) (level left right addr : Nat)
    (part : List Below) : Below × Bytes :=
  let buf := agHeader sb agno spec level part.length left right addr
  let buf := fillSlots (spec.keyLen * spec.slots) buf SHORT_HDR (part.map (keySlot spec))
  let buf := fillSlots 4 buf (spec.ptrsAt sb.blockSize) (part.map fun e => toBe 4 e.block)
  let keys := keysOf spec (part.map fun e => (e.low, e.high))
  (⟨keys.1, keys.2, addr⟩, Crc.stamp buf 52)

/-- Build an AG B+tree over `recs`, which must be sorted, in the blocks `agbnos`
(exactly `AgSpec.blocks` of them). -/
def buildAg (sb : Superblock) (agno : Nat) (spec : AgSpec) (recs : List Rec)
    (agbnos : List Nat) : Result Built := do
  let sizes := levelSizes recs.length (spec.leafMax sb.blockSize) (spec.nodeMax sb.blockSize)
  failIf (sizes.sum ≠ agbnos.length) (.panic "AG B+tree block count")
  let t := buildTree NULL_AGBLOCK (agLeaf sb agno spec) (agNode sb agno spec) Below.block
    (sizes.headD 0) sizes.tail agbnos recs
  return {
    blocks := t.2
    root := (t.1.map (·.block)).headD 0
    levels := sizes.length
    rootEntries := [] }

end FioXfs.Btree
