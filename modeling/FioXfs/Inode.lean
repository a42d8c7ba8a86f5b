import FioXfs.Superblock
set_option autoImplicit false

/-!
# Inodes (`inode.rs`)

The core of an on-disk inode, and where its two forks sit.
-/

namespace FioXfs

open FioXfs.Lib

/-! ## File types in a mode -/

namespace Mode

/-- The file type mask. -/
def IFMT : Nat := 0o170000
/-- Socket. -/
def IFSOCK : Nat := 0o140000
/-- Symbolic link. -/
def IFLNK : Nat := 0o120000
/-- Regular file. -/
def IFREG : Nat := 0o100000
/-- Block device. -/
def IFBLK : Nat := 0o060000
/-- Directory. -/
def IFDIR : Nat := 0o040000
/-- Character device. -/
def IFCHR : Nat := 0o020000
/-- FIFO. -/
def IFIFO : Nat := 0o010000

end Mode

/-! ## Forks -/

/-- How a fork's contents are stored. -/
inductive Format where
  /-- A device number. -/
  | dev
  /-- Inline in the inode. -/
  | local_
  /-- A list of extents in the inode. -/
  | extents
  /-- A B+tree of extents, rooted in the inode. -/
  | btree
  deriving DecidableEq

/-- The format a byte of the core stands for. -/
def Format.fromU8 (v : Nat) (what : String) : Result Format :=
  match v with
  | 0 => .ok .dev
  | 1 => .ok .local_
  | 2 => .ok .extents
  | 3 => .ok .btree
  | v => .error (.corrupt s!"{what} fork format {v}")

/-- The byte that stands for a format. -/
def Format.code : Format → Nat
  | .dev => 0
  | .local_ => 1
  | .extents => 2
  | .btree => 3

theorem Format.fromU8_code (f : Format) (what : String) : fromU8 f.code what = .ok f := by
  cases f <;> rfl

/-! ## Inodes -/

/-- A point in time. -/
structure Timestamp where
  /-- Seconds since the Unix epoch. -/
  secs : Int
  /-- Nanoseconds within the second. -/
  nsecs : Nat
  deriving DecidableEq

def DIFLAG_REALTIME : Nat := 0x1
def DIFLAG2_REFLINK : Nat := 0x2
def DIFLAG2_BIGTIME : Nat := 0x8
def DIFLAG2_NREXT64 : Nat := 0x10

/-- Seconds between the bigtime epoch and the Unix one. -/
def BIGTIME_EPOCH_OFFSET : Int := 2 ^ 31

/-- A parsed inode, with both forks' raw bytes. -/
structure Inode where
  ino : Nat
  mode : Nat
  version : Nat
  format : Format
  uid : Nat
  gid : Nat
  nlink : Nat
  projid : Nat
  atime : Timestamp
  mtime : Timestamp
  ctime : Timestamp
  crtime : Option Timestamp
  /-- Size in bytes. -/
  size : Nat
  /-- Blocks allocated, both forks. -/
  nblocks : Nat
  /-- Data fork extents. -/
  nextents : Nat
  /-- Attribute fork extents. -/
  anextents : Nat
  /-- Attribute fork format, when there is an attribute fork. -/
  aformat : Option Format
  flags : Nat
  flags2 : Nat
  generation : Nat
  dataFork : Bytes
  attrFork : Bytes
  deriving DecidableEq

namespace Inode

/-- `IN`. -/
def MAGIC : Nat := 0x494e

/-- A stored time. -/
def readTime (bigtime : Bool) (raw : Nat) : Timestamp :=
  if bigtime then ⟨Int.ofNat (raw / 1000000000) - BIGTIME_EPOCH_OFFSET, raw % 1000000000⟩
  else
    let hi := raw / 2 ^ 32
    ⟨if hi < 2 ^ 31 then Int.ofNat hi else Int.ofNat hi - 2 ^ 32, raw % 2 ^ 32⟩

/-- Where an inode's core ends, by its version. -/
def coreLen (sb : Superblock) (ino version : Nat) : Result Nat :=
  if (version = 1 ∨ version = 2) ∧ sb.isV5 = false then .ok 100
  else if version = 3 ∧ sb.isV5 = true then .ok 176
  else .error (.corrupt s!"inode {ino}: version {version}")

/-- The forks past the core: the data fork, the attribute fork and its format. -/
def splitForks (ino core : Nat) (buf : Bytes) : Result (Bytes × Bytes × Option Format) := do
  let forkoff := getBe 1 buf 82 * 8
  let literal := buf.length - core
  if forkoff = 0 then return (buf.drop core, [], none)
  failIf (literal ≤ forkoff) (.corrupt s!"inode {ino}: fork offset {forkoff}")
  let aformat ← Format.fromU8 (getBe 1 buf 83) "attribute"
  return (slice buf core forkoff, buf.drop (core + forkoff), some aformat)

/-- What a version 3 core checks of itself. -/
def checkV3 (ino version : Nat) (buf : Bytes) : Result Unit :=
  if version = 3 then do
    failIf (Crc.verify buf 100 = false) (.corrupt s!"inode {ino}: checksum")
    failIf (be64 buf 152 ≠ ino) (.corrupt s!"inode {ino}: records itself as {be64 buf 152}")
  else .ok ()

/-- Parse the inode `ino` from its `inodeSize` bytes. -/
def parse (sb : Superblock) (ino : Nat) (buf : Bytes) : Result Inode := do
  failIf (buf.length < sb.inodeSize) (.corrupt s!"inode {ino}: short buffer")
  let buf := buf.take sb.inodeSize
  failIf (be16 buf 0 ≠ MAGIC) (.corrupt s!"inode {ino}: bad magic")
  let version := getBe 1 buf 4
  let core ← coreLen sb ino version
  checkV3 ino version buf
  let flags2 := if version = 3 then be64 buf 120 else 0
  let bigtime := hasBit flags2 DIFLAG2_BIGTIME
  let nrext64 := hasBit flags2 DIFLAG2_NREXT64
  let format ← Format.fromU8 (getBe 1 buf 5) "data"
  let (dataFork, attrFork, aformat) ← splitForks ino core buf
  return {
    ino := ino
    mode := be16 buf 2
    version := version
    format := format
    uid := be32 buf 8
    gid := be32 buf 12
    nlink := if version = 1 then be16 buf 6 else be32 buf 16
    projid := if version = 1 then 0 else be16 buf 22 * 2 ^ 16 + be16 buf 20
    atime := readTime bigtime (be64 buf 32)
    mtime := readTime bigtime (be64 buf 40)
    ctime := readTime bigtime (be64 buf 48)
    crtime := if version = 3 then some (readTime bigtime (be64 buf 144)) else none
    size := be64 buf 56
    nblocks := be64 buf 64
    nextents := if nrext64 then be64 buf 24 else be32 buf 76
    anextents := if nrext64 then be32 buf 76 else be16 buf 80
    aformat := aformat
    flags := be16 buf 90
    flags2 := flags2
    generation := be32 buf 92
    dataFork := dataFork
    attrFork := attrFork }

/-- The file type bits of `mode`. -/
def fileType (i : Inode) : Nat := i.mode &&& Mode.IFMT

/-- Whether this is a directory. -/
def isDir (i : Inode) : Bool := i.fileType == Mode.IFDIR

/-- Whether the data lives on a realtime device rather than the data one. -/
def isRealtime (i : Inode) : Bool := hasBit i.flags DIFLAG_REALTIME

/-- A device node's number as `(major, minor)`. -/
def device (i : Inode) : Nat × Nat :=
  if i.format ≠ .dev ∨ i.dataFork.length < 4 then (0, 0)
  else
    let dev := be32 i.dataFork 0
    (dev / 2 ^ 18, dev % 2 ^ 18)

end Inode

end FioXfs
