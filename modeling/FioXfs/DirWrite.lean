import FioXfs.Dir
import FioXfs.Lib.Levels
import Mathlib.Data.List.Sort
import Mathlib.Data.Prod.Lex
set_option autoImplicit false

/-!
# Writing directories (`dirwrite.rs`)

A whole directory from its list of names, in the smallest form that holds it: short
form in the inode, a single block with names and hash index together, data blocks with
one leaf block, or data blocks under a tree of leaf and node blocks with free-index
blocks beside it.
-/

namespace FioXfs.DirWrite

open FioXfs.Lib FioXfs.Dir

/-- Byte offset in a directory's logical space of the free-index blocks. -/
def FREE_OFFSET : Nat := 2 * LEAF_OFFSET

def XDF3 : Nat := 0x58444633
def LEAF1 : Nat := 0x3df1
def LEAFN : Nat := 0x3dff
def NODE : Nat := 0x3ebe

/-- Header length of every v5 directory block. -/
def HDR : Nat := 64

/-- One name to write. -/
structure DirEnt where
  /-- The name. -/
  name : Bytes
  /-- Its inode. -/
  ino : Nat
  /-- Its `ftype` code. -/
  ftype : Nat
  deriving DecidableEq

/-- One directory block, ready but for its disk address and checksum. -/
structure DirBlock where
  /-- Logical file block it goes at. -/
  lblk : Nat
  /-- Contents, one directory block long. -/
  data : Bytes
  /-- Where its checksum goes. -/
  crcOff : Nat
  /-- Where its own disk address (in 512-byte units) goes. -/
  blknoOff : Nat
  deriving DecidableEq

/-- A directory laid out. -/
inductive Layout where
  /-- Short form: the bytes of the inode's data fork. -/
  | short (bytes : Bytes)
  /-- Blocks, and the directory's size (the end of its data blocks). -/
  | blocks (size : Nat) (blocks : List DirBlock)
  deriving DecidableEq

/-! ## Hashing -/

/-- `rotate_left` on a 32-bit word. -/
def rotl32 (h k : Nat) : Nat := (h <<< k ||| h >>> (32 - k)) % 2 ^ 32

/-- The hash of a name after what has been read of it. -/
def hashFrom : Nat → Bytes → Nat
  | hash, a :: b :: c :: d :: n =>
      hashFrom (a.toNat <<< 21 ^^^ b.toNat <<< 14 ^^^ c.toNat <<< 7 ^^^ d.toNat ^^^ rotl32 hash 28) n
  | hash, [a, b, c] => a.toNat <<< 14 ^^^ b.toNat <<< 7 ^^^ c.toNat ^^^ rotl32 hash 21
  | hash, [a, b] => a.toNat <<< 7 ^^^ b.toNat ^^^ rotl32 hash 14
  | hash, [a] => a.toNat ^^^ rotl32 hash 7
  | hash, [] => hash

/-- XFS's directory name hash. -/
def hashname (name : Bytes) : Nat := hashFrom 0 name

/-! ## Entries -/

/-- Bytes a data entry takes: inode, length, name, type, tag, 8-aligned. -/
def entsize (namelen : Nat) : Nat := (8 + 1 + namelen + 1 + 2 + 7) / 8 * 8

/-- Inode numbers above this need 8 bytes in a short-form directory. -/
def MAX_SHORT_INUM : Nat := 2 ^ 32 - 1

/-- A short-form directory's entries, with inode numbers of `isz` bytes.  Each name's
offset is where it would sit in a single-block directory. -/
def shortBody (isz : Nat) : Nat → List DirEnt → Bytes
  | _, [] => []
  | offset, e :: es =>
      toBe 1 e.name.length ++ toBe 2 offset ++ e.name ++ toBe 1 e.ftype ++ toBe isz e.ino ++
        shortBody isz (offset + entsize e.name.length) es

/-- The inode numbers of a short form that need 8 bytes. -/
def i8count (parent : Nat) (names : List DirEnt) : Nat :=
  (if MAX_SHORT_INUM < parent then 1 else 0) +
    (names.filter fun e => decide (MAX_SHORT_INUM < e.ino)).length

/-- Bytes of an inode number in a short form. -/
def shortIsz (parent : Nat) (names : List DirEnt) : Nat :=
  if 0 < i8count parent names then 8 else 4

/-- Bytes a short form takes. -/
def shortSize (parent : Nat) (names : List DirEnt) : Nat :=
  let isz := shortIsz parent names
  2 + isz + (names.map fun e => 1 + 2 + e.name.length + 1 + isz).sum

/-- The short form, if it fits in `forkSize` bytes. -/
def shortform (parent : Nat) (names : List DirEnt) (forkSize : Nat) : Option Bytes :=
  if 255 < names.length then none
  else if forkSize < shortSize parent names then none
  else
    let isz := shortIsz parent names
    some (toBe 1 names.length ++ toBe 1 (i8count parent names) ++ toBe isz parent ++
      shortBody isz (HDR + entsize 1 + entsize 2) names)

/-- Write a data entry at `p`. -/
def putEntry (buf : Bytes) (p : Nat) (e : DirEnt) : Bytes :=
  let len := entsize e.name.length
  let buf := put64 buf p e.ino
  let buf := putBe 1 buf (p + 8) e.name.length
  let buf := splice buf (p + 9) e.name
  let buf := putBe 1 buf (p + 9 + e.name.length) e.ftype
  put16 buf (p + len - 2) p

/-- Data entries one after another from `p`. -/
def putEntries : Bytes → Nat → List DirEnt → Bytes
  | buf, _, [] => buf
  | buf, p, e :: es => putEntries (putEntry buf p e) (p + entsize e.name.length) es

/-- Bytes the entries of a list take. -/
def usedBytes (es : List DirEnt) : Nat := (es.map fun e => entsize e.name.length).sum

/-- The index entries of names laid out from byte `at_` of the data space on. -/
def indexFrom : Nat → List DirEnt → List (Nat × Nat)
  | _, [] => []
  | at_, e :: es =>
      (hashname e.name, (at_ >>> 3) % 2 ^ 32) :: indexFrom (at_ + entsize e.name.length) es

/-- Mark `len` bytes at `p` unused and make them the block's best free region. -/
def putFree (buf : Bytes) (p len : Nat) : Bytes :=
  if 0 < len then
    let buf := put16 buf p 0xffff
    let buf := put16 buf (p + 2) len
    let buf := put16 buf (p + len - 2) p
    let buf := put16 buf 48 p
    put16 buf 50 len
  else buf

/-- The UUID and owner of a data or block header. -/
def stampHeader (sb : Superblock) (buf : Bytes) (ino : Nat) : Bytes :=
  put64 (splice buf 24 sb.metaUuid) 40 ino

/-- The order index entries are sorted in. -/
def indexLe (a b : Nat × Nat) : Prop := toLex a ≤ toLex b

instance : DecidableRel indexLe := fun a b => inferInstanceAs (Decidable (toLex a ≤ toLex b))

/-- Index entries, eight bytes each, from offset `o`. -/
def putIndex (buf : Bytes) (o : Nat) (ents : List (Nat × Nat)) : Bytes :=
  fillSlots 8 buf o (ents.map fun e => toBe 4 e.1 ++ toBe 4 e.2)

/-! ## A single block -/

/-- Names, then the hash index and a tail at the end. -/
def blockForm (sb : Superblock) (ino dbs : Nat) (all : List DirEnt) : DirBlock :=
  let buf := put32 (List.replicate dbs 0) 0 XDB3
  let buf := putEntries buf HDR all
  let p := HDR + usedBytes all
  let leafAt := dbs - 8 - all.length * 8
  let buf := putFree buf p (leafAt - p)
  let leaf := (indexFrom HDR all).insertionSort indexLe
  let buf := putIndex buf leafAt leaf
  let buf := put32 buf (dbs - 8) all.length
  let buf := put32 buf (dbs - 4) 0
  ⟨0, stampHeader sb buf ino, 4, 8⟩

/-! ## Data blocks -/

/-- The entries that still fit in a block of `dbs` bytes from `p` on, and the rest. -/
def fitting (dbs : Nat) : Nat → List DirEnt → List DirEnt × List DirEnt
  | _, [] => ([], [])
  | p, e :: es =>
      if dbs < p + entsize e.name.length then ([], e :: es)
      else
        let r := fitting dbs (p + entsize e.name.length) es
        (e :: r.1, r.2)

/-- Data block `db`, holding `es`. -/
def dataBlock (sb : Superblock) (ino dbs fsbPer db : Nat) (es : List DirEnt) : DirBlock :=
  let buf := put32 (List.replicate dbs 0) 0 XDD3
  let buf := putEntries buf HDR es
  let p := HDR + usedBytes es
  ⟨db * fsbPer, stampHeader sb (putFree buf p (dbs - p)) ino, 4, 8⟩

/-- The entries of each data block, packed in order.  A turn that places nothing would
go on for ever. -/
def packLoop (dbs : Nat) : Nat → List DirEnt → Result (List (List DirEnt))
  | _, [] => return []
  | 0, _ :: _ => .error (.panic "packing without end")
  | fuel + 1, e :: es => do
      let r := fitting dbs HDR (e :: es)
      let rest ← packLoop dbs fuel r.2
      return r.1 :: rest

/-- The entries of each data block. -/
def pack (dbs : Nat) (all : List DirEnt) : Result (List (List DirEnt)) :=
  packLoop dbs (all.length + 1) all

/-- The best free region of a data block that holds `es`. -/
def bestFree (dbs : Nat) (es : List DirEnt) : Nat := dbs - (HDR + usedBytes es)

/-- The index entries of every data block, from the `db`th on. -/
def indexBlocks (dbs : Nat) : Nat → List (List DirEnt) → List (Nat × Nat)
  | _, [] => []
  | db, es :: groups => indexFrom (db * dbs + HDR) es ++ indexBlocks dbs (db + 1) groups

/-! ## Index blocks -/

/-- The header of a leaf or node block. -/
def daInfo (sb : Superblock) (ino dbs magic forw back : Nat) : Bytes :=
  let buf := put32 (List.replicate dbs 0) 0 forw
  let buf := put32 buf 4 back
  let buf := put16 buf 8 magic
  let buf := splice buf 32 sb.metaUuid
  put64 buf 48 ino

/-- A leaf's entries and their count. -/
def putLeafEnts (buf : Bytes) (ents : List (Nat × Nat)) : Bytes :=
  putIndex (put16 buf 56 ents.length) HDR ents

/-- The one leaf block: the whole index, and each data block's best free. -/
def leafForm (sb : Superblock) (ino dbs leafFirst : Nat) (leaf : List (Nat × Nat))
    (bests : List Nat) : DirBlock :=
  let buf := putLeafEnts (daInfo sb ino dbs LEAF1 0 0) leaf
  let buf := fillSlots 2 buf (dbs - 4 - bests.length * 2) (bests.map (toBe 2))
  ⟨leafFirst, put32 buf (dbs - 4) bests.length, 12, 16⟩

/-- A finished index block as the level above sees it: its highest hash and position. -/
abbrev Below : Type := Nat × Nat

/-- The highest hash of a block over `part`. -/
def highHash (part : List (Nat × Nat)) : Nat := (part.getLast?.map (·.1)).getD 0

/-- A leaf block of the tree form. -/
def leafBlock (sb : Superblock) (ino dbs back forw addr : Nat) (part : List (Nat × Nat)) :
    Below × DirBlock :=
  ((highHash part, addr), ⟨addr, putLeafEnts (daInfo sb ino dbs LEAFN forw back) part, 12, 16⟩)

/-- A node block at `level`. -/
def nodeBlock (sb : Superblock) (ino dbs level back forw addr : Nat) (part : List Below) :
    Below × DirBlock :=
  let buf := daInfo sb ino dbs NODE forw back
  let buf := put16 buf 56 part.length
  let buf := put16 buf 58 level
  ((highHash part, addr), ⟨addr, putIndex buf HDR part, 12, 16⟩)

/-- A free-index block: the best free of data blocks from `first` on. -/
def freeBlock (sb : Superblock) (ino dbs lblk first : Nat) (chunk : List Nat) : DirBlock :=
  let buf := put32 (List.replicate dbs 0) 0 XDF3
  let buf := splice buf 24 sb.metaUuid
  let buf := put64 buf 40 ino
  let buf := put32 buf 48 first
  let buf := put32 buf 52 chunk.length
  let buf := put32 buf 56 chunk.length
  ⟨lblk, fillSlots 2 buf HDR (chunk.map (toBe 2)), 4, 8⟩

/-- The free-index blocks: the best frees in fixed-size runs. -/
def freeBlocks (sb : Superblock) (ino dbs fsbPer freeFirst : Nat) (bests : List Nat) :
    List DirBlock :=
  let perFree := (dbs - HDR) / 2
  (List.range (divCeil bests.length perFree)).map fun i =>
    freeBlock sb ino dbs (freeFirst + i * fsbPer) (i * perFree) (slice bests (i * perFree) perFree)

/-- The positions of the tree's blocks, in the order they are made: leaves first, and the
root, which is made last, at the first of them. -/
def positions (leafFirst fsbPer total : Nat) : List Nat :=
  ((List.range total).tail.map fun i => leafFirst + i * fsbPer) ++ [leafFirst]

/-- Blocks at each level of the tree, leaves first. -/
def treeSizes (dbs n : Nat) : List Nat :=
  let perLeaf := (dbs - HDR) / 8
  let nleaf := divCeil n perLeaf
  nleaf :: (levelsAbove 1 perLeaf nleaf nleaf).getD []

/-- The leaf and node blocks over a sorted index. -/
def treeBlocks (sb : Superblock) (ino dbs fsbPer leafFirst : Nat) (leaf : List (Nat × Nat)) :
    List DirBlock :=
  let sizes := treeSizes dbs leaf.length
  (buildTree 0 (leafBlock sb ino dbs) (nodeBlock sb ino dbs) Prod.snd (sizes.headD 0) sizes.tail
    (positions leafFirst fsbPer sizes.sum) leaf).2.map (·.2)

/-! ## Laying out -/

/-- The names with `.` and `..` before them. -/
def withDots (ino parent : Nat) (names : List DirEnt) : List DirEnt :=
  ⟨[46], ino, 2⟩ :: ⟨[46, 46], parent, 2⟩ :: names

/-- The forms with separate data blocks. -/
def indexedForm (sb : Superblock) (ino dbs fsbPer : Nat) (all : List DirEnt) : Result Layout := do
  let leafFirst := LEAF_OFFSET >>> sb.blockLog
  let freeFirst := FREE_OFFSET >>> sb.blockLog
  let groups ← pack dbs all
  let data := groups.zipIdx.map fun g => dataBlock sb ino dbs fsbPer g.2 g.1
  let bests := groups.map (bestFree dbs)
  let leaf := (indexBlocks dbs 0 groups).insertionSort indexLe
  let size := groups.length * dbs
  if HDR + leaf.length * 8 + groups.length * 2 + 4 ≤ dbs then
    return .blocks size (data ++ [leafForm sb ino dbs leafFirst leaf bests])
  else
    let all := data ++ treeBlocks sb ino dbs fsbPer leafFirst leaf ++
      freeBlocks sb ino dbs fsbPer freeFirst bests
    return .blocks size (all.insertionSort fun a b => a.lblk ≤ b.lblk)

/-- Lay out a directory: inode `ino`, parent `parent`, the names (without `.` and `..`),
and a data fork of `forkSize` bytes in the inode. -/
def layout (sb : Superblock) (ino parent : Nat) (names : List DirEnt) (forkSize : Nat) :
    Result Layout :=
  match shortform parent names forkSize with
  | some sf => .ok (.short sf)
  | none => do
      let dbs ← sb.dirBlockSize
      let fsbPer ← shl64 1 sb.dirblkLog
      let all := withDots ino parent names
      if HDR + usedBytes all + all.length * 8 + 8 ≤ dbs then
        return .blocks dbs [blockForm sb ino dbs all]
      else indexedForm sb ino dbs fsbPer all

end FioXfs.DirWrite
